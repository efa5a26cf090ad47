import Lox.Report
import Lox.Source.Piece

/-!
# Scanning source text

Every piece of the source that is neither blank nor a comment gives a token or an error. Tokens
carry the line on which their text ends, errors the line on which it starts.
-/

namespace Lox

inductive ScanFault where
  | unterminatedString
  | unexpectedCharacter
deriving DecidableEq

def ScanFault.message : ScanFault → String
  | unterminatedString => "Unterminated string."
  | unexpectedCharacter => "Unexpected character."

structure ScanError where
  line : Nat
  fault : ScanFault

def ScanError.report (error : ScanError) : Report :=
  .onLine error.line error.fault.message

namespace Piece

def lexeme (piece : Piece) : String := String.ofList piece.text

def newlines (piece : Piece) : Nat := piece.text.count '\n'

/-- The token that a piece gives, if its text ends on the given line. -/
def token? (piece : Piece) (line : Nat) : Option Token :=
  match piece.role with
  | .symbol kind => some (.plain kind piece.lexeme line)
  | .word => some (.plain (.ofWord piece.lexeme) piece.lexeme line)
  | .number whole fraction =>
      some ⟨.number, piece.lexeme, some (.number (Number.ofDecimal whole fraction)), line⟩
  | .string contents => some ⟨.string, piece.lexeme, some (.string (String.ofList contents)), line⟩
  | .blank | .comment | .unterminated | .unexpected => none

def fault? (piece : Piece) : Option ScanFault :=
  match piece.role with
  | .unterminated => some .unterminatedString
  | .unexpected => some .unexpectedCharacter
  | .blank | .comment | .symbol _ | .word | .number .. | .string _ => none

end Piece

/-- The tokens of a source, closed by the end of input, and its errors. -/
structure Scan where
  tokens : List Token
  errors : List ScanError

/-- What the pieces so far gave, last first, and the line that comes next. -/
structure Scanning where
  line : Nat
  tokens : List Token
  errors : List ScanError

namespace Scanning

def start : Scanning := { line := 1, tokens := [], errors := [] }

def add (done : Scanning) (piece : Piece) : Scanning :=
  let line := done.line + piece.newlines
  { line
    tokens := (piece.token? line).toList ++ done.tokens
    errors := (piece.fault?.map (ScanError.mk done.line)).toList ++ done.errors }

def finish (done : Scanning) : Scan :=
  { tokens := (Token.endOfInput done.line :: done.tokens).reverse
    errors := done.errors.reverse }

end Scanning

def Scan.ofText (text : List Char) : Scan :=
  ((Piece.ofText text).foldl Scanning.add .start).finish

def Scan.ofSource (source : String) : Scan := .ofText source.toList

end Lox
