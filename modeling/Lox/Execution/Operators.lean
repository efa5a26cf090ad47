import Lox.Execution.Fault
import Lox.Value

/-!
# Operators

What the operators do to values. Equality takes any two values and addition also two strings; all
others need numbers, which is checked before it is checked that the operator exists.
-/

namespace Lox

namespace Value

def applyUnary (operand : Value) (op : Token) : Except RuntimeError Value :=
  match op.kind, operand with
  | .bang, v => .ok (boolean !v.isTruthy)
  | .minus, number x => .ok (number (-x))
  | .minus, _ => .error ⟨op, .operandNotNumber⟩
  | _, _ => .error ⟨op, .unknownUnary op.lexeme⟩

/-- The operators on numbers other than addition. -/
def applyNumeric (op : Token) (x y : Float) : Except RuntimeError Value :=
  match op.kind with
  | .minus => .ok (number (x - y))
  | .star => .ok (number (x * y))
  | .slash => .ok (number (x / y))
  | .greater => .ok (boolean (x > y))
  | .greaterEqual => .ok (boolean (x ≥ y))
  | .less => .ok (boolean (x < y))
  | .lessEqual => .ok (boolean (x ≤ y))
  | _ => .error ⟨op, .unknownBinary op.lexeme⟩

def applyBinary (left : Value) (op : Token) (right : Value) : Except RuntimeError Value :=
  match op.kind, left, right with
  | .equalEqual, a, b => .ok (boolean (a.equals b))
  | .bangEqual, a, b => .ok (boolean !a.equals b)
  | .plus, number x, number y => .ok (number (x + y))
  | .plus, string s, string t => .ok (string (s ++ t))
  | .plus, _, _ => .error ⟨op, .operandsNotAddable⟩
  | _, number x, number y => applyNumeric op x y
  | _, _, _ => .error ⟨op, .operandsNotNumbers⟩

end Value

end Lox
