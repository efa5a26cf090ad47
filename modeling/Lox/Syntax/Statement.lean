import Lox.Syntax.Expression

/-!
# Statements read from the left

Of a statement that is not complete, all that further tokens can depend on is kept. A token carries
such a statement on, completes it, or stands where nothing allows it.
-/

namespace Lox

/-- The statement that an expression belongs to. -/
inductive Clause where
  | print (keyword : Token)
  | declare (name : Token)
  | expression

namespace Clause

def complete (e : Expr) : Clause → Stmt
  | print keyword => .print keyword e
  | declare name => .declare name (some e)
  | expression => .expression e

/-- What is wrong if no semicolon follows the expression. -/
def unended : Clause → SyntaxFault
  | print _ => .unendedPrint
  | declare _ => .unendedDeclaration
  | expression => .unendedExpression

end Clause

/-- A statement of which some tokens have been read. -/
inductive PartialStmt where
  /-- A declaration that waits for its name. -/
  | unnamed
  /-- A declaration up to its name. -/
  | named (name : Token)
  /-- An expression that waits for an operand. -/
  | waiting (clause : Clause) (frames : List Frame)
  /-- An expression that ends in an operand. -/
  | ready (clause : Clause) (operand : Operand)

/-- What a token does to a partial statement. -/
inductive Reaction where
  | more (stmt : PartialStmt)
  | complete (stmt : Stmt)
  | refuse (fault : SyntaxFault)

namespace PartialStmt

/-- A token where an operand has to start. -/
def readOperand (clause : Clause) (frames : List Frame) (token : Token) : Reaction :=
  match token.kind with
  | .leftParen => .more (waiting clause (.group :: frames))
  | .bang | .minus => .more (waiting clause (.unary token :: frames))
  | _ =>
      match token.operand? with
      | some e => .more (ready clause (.applyUnary frames e))
      | none => .refuse .missingOperand

/-- A token behind an operand that closes all it can: a parenthesis, a semicolon, or none of
these, which is refused. -/
def readClosing (clause : Clause) (operand : Operand) (token : Token) : Reaction :=
  match operand.frames, token.kind with
  | .group :: frames, .rightParen =>
      .more (ready clause (.applyUnary frames (.group operand.expr)))
  | _ :: _, _ => .refuse .unclosedGroup
  | [], .semicolon => .complete (clause.complete operand.expr)
  | [], _ => .refuse clause.unended

/-- A token behind an operand, and the errors that it brings to light, the last first. -/
def readOperator (clause : Clause) (operand : Operand) (token : Token) :
    List SyntaxError × Reaction :=
  let level := token.kind.precedence
  if level ≠ 0 then
    let left := Operand.applyBinary level operand.frames operand.expr
    ([], .more (waiting clause (.binary token left.expr :: left.frames)))
  else if token.kind = .equal then
    let target := Operand.applyBinary 1 operand.frames operand.expr
    ([], .more (waiting clause (.ofTarget token target.expr :: target.frames)))
  else
    let closed := Operand.close [] operand.frames operand.expr
    (closed.1, readClosing clause closed.2 token)

/-- What a token does to a partial statement, and the errors that it brings to light, the last
first. -/
def read (token : Token) : PartialStmt → List SyntaxError × Reaction
  | unnamed =>
      if token.kind = .identifier then ([], .more (named token)) else ([], .refuse .missingName)
  | named name =>
      match token.kind with
      | .equal => ([], .more (waiting (.declare name) []))
      | .semicolon => ([], .complete (.declare name none))
      | _ => ([], .refuse .unendedDeclaration)
  | waiting clause frames => ([], readOperand clause frames token)
  | ready clause operand => readOperator clause operand token

end PartialStmt

end Lox
