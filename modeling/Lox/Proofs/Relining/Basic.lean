import Lox.Failure
import Lox.Syntax.Tree

/-!
# Other line numbers

Token lists, trees and errors with every line number replaced. Kinds, lexemes and values stay.
-/

namespace Lox

variable (f : Nat → Nat)

namespace Token

def reline (token : Token) : Token := { token with line := f token.line }

@[simp] theorem reline_kind (token : Token) : (token.reline f).kind = token.kind := rfl

@[simp] theorem reline_lexeme (token : Token) : (token.reline f).lexeme = token.lexeme := rfl

@[simp] theorem reline_literal (token : Token) : (token.reline f).literal = token.literal := rfl

@[simp] theorem reline_isEnd (token : Token) : (token.reline f).isEnd = token.isEnd := rfl

end Token

def Expr.reline : Expr → Expr
  | literal value => literal value
  | group inner => group inner.reline
  | unary op operand => unary (op.reline f) operand.reline
  | binary op left right => binary (op.reline f) left.reline right.reline
  | var name => var (name.reline f)
  | assign name value => assign (name.reline f) value.reline

mutual

def Stmt.reline : Stmt → Stmt
  | .expression e => .expression (e.reline f)
  | .print keyword e => .print (keyword.reline f) (e.reline f)
  | .declare name initial => .declare (name.reline f) (initial.map (Expr.reline f))
  | .block body => .block (Stmt.relineAll body)

def Stmt.relineAll : List Stmt → List Stmt
  | [] => []
  | s :: rest => s.reline :: Stmt.relineAll rest

end

theorem Stmt.relineAll_eq_map (program : List Stmt) :
    relineAll f program = program.map (reline f) := by
  induction program with
  | nil => rfl
  | cons s rest ih => rw [relineAll, ih, List.map_cons]

def ScanError.reline (error : ScanError) : ScanError := { error with line := f error.line }

def SyntaxError.reline (error : SyntaxError) : SyntaxError :=
  { error with token := error.token.reline f }

def RuntimeError.reline (error : RuntimeError) : RuntimeError :=
  { error with token := error.token.reline f }

def Failure.reline : Failure → Failure
  | scan errors => scan (errors.map (ScanError.reline f))
  | parse errors => parse (errors.map (SyntaxError.reline f))
  | runtime error => runtime (error.reline f)

/-! ## Line numbers replaced twice -/

variable (g : Nat → Nat)

theorem Failure.reline_reline (failure : Failure) :
    (failure.reline f).reline g = failure.reline (g ∘ f) := by
  cases failure with
  | scan errors => exact congrArg Failure.scan (by simp [ScanError.reline])
  | parse errors => exact congrArg Failure.parse (by simp [SyntaxError.reline, Token.reline])
  | runtime error => rfl

theorem Failure.reline_same : Failure.reline (fun line ↦ line) = id := by
  funext failure
  cases failure with
  | scan errors => exact congrArg Failure.scan (List.map_id' errors)
  | parse errors => exact congrArg Failure.parse (List.map_id' errors)
  | runtime error => rfl

end Lox
