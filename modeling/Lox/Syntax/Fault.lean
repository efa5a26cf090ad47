import Lox.Report

/-!
# Syntax errors
-/

namespace Lox

inductive SyntaxFault where
  | missingName
  | missingOperand
  | unclosedGroup
  | unclosedBlock
  | unendedDeclaration
  | unendedPrint
  | unendedExpression
  | badTarget
deriving DecidableEq

def SyntaxFault.message : SyntaxFault → String
  | missingName => "Expect variable name."
  | missingOperand => "Expect expression."
  | unclosedGroup => "Expect ')' after expression."
  | unclosedBlock => "Expect '\x7d' after block."
  | unendedDeclaration => "Expect ';' after variable declaration."
  | unendedPrint => "Expect ';' after value."
  | unendedExpression => "Expect ';' after expression."
  | badTarget => "Invalid assignment target."

structure SyntaxError where
  token : Token
  fault : SyntaxFault

def SyntaxError.report (error : SyntaxError) : Report :=
  .onToken error.token error.fault.message

end Lox
