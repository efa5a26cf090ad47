import Lox.Value

/-!
# Syntax trees

Operators and names are kept as the tokens they were read from, so that a failing step can point
into the source. Trees built by other means may hold any token there.
-/

namespace Lox

inductive Expr where
  | literal (value : Value)
  | group (inner : Expr)
  | unary (op : Token) (operand : Expr)
  | binary (op : Token) (left right : Expr)
  | var (name : Token)
  | assign (name : Token) (value : Expr)

inductive Stmt where
  | expression (expr : Expr)
  | print (keyword : Token) (expr : Expr)
  | declare (name : Token) (initial : Option Expr)
  | block (body : List Stmt)

inductive Tree where
  | expr (e : Expr)
  | stmt (s : Stmt)

namespace Expr

/-- An upper bound on the parts that a tree opens into. -/
def weight : Expr → Nat
  | literal _ => 4
  | group inner => inner.weight + 4
  | unary _ operand => operand.weight + 4
  | binary _ left right => left.weight + right.weight + 4
  | var _ => 4
  | assign _ value => value.weight + 4

end Expr

mutual

def Stmt.weight : Stmt → Nat
  | .expression expr => expr.weight + 4
  | .print _ expr => expr.weight + 4
  | .declare _ none => 4
  | .declare _ (some initial) => initial.weight + 4
  | .block body => Stmt.weightOfAll body + 4

def Stmt.weightOfAll : List Stmt → Nat
  | [] => 0
  | s :: rest => s.weight + 1 + Stmt.weightOfAll rest

end

def Tree.weight : Tree → Nat
  | expr e => e.weight
  | stmt s => s.weight

end Lox
