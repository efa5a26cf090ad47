import Lox.Report

/-!
# Runtime errors
-/

namespace Lox

inductive RuntimeFault where
  | undefined (name : String)
  | operandNotNumber
  | operandsNotNumbers
  | operandsNotAddable
  | unknownUnary (lexeme : String)
  | unknownBinary (lexeme : String)
  | output (reason : String)

def RuntimeFault.message : RuntimeFault → String
  | undefined name => "Undefined variable '" ++ name ++ "'."
  | operandNotNumber => "Operand must be a number."
  | operandsNotNumbers => "Operands must be a numbers."
  | operandsNotAddable => "Operands must be two numbers or two strings."
  | unknownUnary lexeme => "Unknown unary operator '" ++ lexeme ++ "'."
  | unknownBinary lexeme => "Unknown binary operator '" ++ lexeme ++ "'."
  | output reason => "Failed to write output: " ++ reason ++ "."

structure RuntimeError where
  token : Token
  fault : RuntimeFault

def RuntimeError.report (error : RuntimeError) : Report :=
  .onLine error.token.line error.fault.message

end Lox
