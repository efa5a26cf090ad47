import Lox.Syntax.Fault
import Lox.Syntax.Tree

/-!
# Expressions read from the left

Of an expression that is not complete, the operators, assignments and open parentheses that wait for
an operand are kept as frames, the innermost first. Each precedence level groups to the left,
assignment to the right.
-/

namespace Lox

/-- How tightly a binary operator binds; `0` for all that is not one. -/
def Kind.precedence : Kind → Nat
  | .star | .slash => 4
  | .plus | .minus => 3
  | .greater | .greaterEqual | .less | .lessEqual => 2
  | .equalEqual | .bangEqual => 1
  | _ => 0

/-- Something that waits for the operand to its right. -/
inductive Frame where
  | group
  | unary (op : Token)
  | binary (op : Token) (left : Expr)
  | assign (name : Token)
  /-- An assignment to something other than a name. -/
  | misplaced (equals : Token) (left : Expr)

namespace Frame

/-- The frame of an assignment to the expression on its left. -/
def ofTarget (equals : Token) : Expr → Frame
  | .var name => assign name
  | left => misplaced equals left

/-- The expression that a frame and its operand make. An assignment to something other than a name
leaves just that. -/
def fill (operand : Expr) : Frame → Expr
  | group => .group operand
  | unary op => .unary op operand
  | binary op left => .binary op left operand
  | assign name => .assign name operand
  | misplaced _ left => left

/-- The errors that come to light when the operand is complete. -/
def errors : Frame → List SyntaxError
  | misplaced equals _ => [⟨equals, .badTarget⟩]
  | _ => []

end Frame

/-- A complete operand and the frames around it. -/
structure Operand where
  frames : List Frame
  expr : Expr

namespace Operand

/-- Unary operators take the operand at once. -/
def applyUnary : List Frame → Expr → Operand
  | .unary op :: frames, e => applyUnary frames (.unary op e)
  | frames, e => ⟨frames, e⟩

/-- Binary operators that bind at least as tightly as `level` take the operand. -/
def applyBinary (level : Nat) : List Frame → Expr → Operand
  | .binary op left :: frames, e =>
      if level ≤ op.kind.precedence then applyBinary level frames (.binary op left e)
      else ⟨.binary op left :: frames, e⟩
  | frames, e => ⟨frames, e⟩

/-- All frames take the operand, up to the innermost open parenthesis. The errors that come to
light stand in front of the given ones, the last first. -/
def close (errors : List SyntaxError) : List Frame → Expr → List SyntaxError × Operand
  | [], e => (errors, ⟨[], e⟩)
  | .group :: frames, e => (errors, ⟨.group :: frames, e⟩)
  | frame :: frames, e => close (frame.errors ++ errors) frames (frame.fill e)

end Operand

/-- The expression that a token is by itself. A number or string token counts by the value that it
carries. -/
def Token.operand? (token : Token) : Option Expr :=
  match token.kind with
  | .keyword .trueWord => some (.literal (.boolean true))
  | .keyword .falseWord => some (.literal (.boolean false))
  | .keyword .nilWord => some (.literal .nil)
  | .number | .string => token.literal.map fun literal => .literal (.ofLiteral literal)
  | .identifier => some (.var token)
  | _ => none

end Lox
