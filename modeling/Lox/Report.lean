import Lox.Token.Basic

/-!
# Reports

A report is one diagnostic as it is shown: the line, for a syntax error the token it stands at, and
a message.
-/

namespace Lox

/-- What a report points at besides its line. -/
inductive Report.Place where
  | unspecified
  | atEnd
  | atLexeme (lexeme : String)

structure Report where
  line : Nat
  place : Report.Place
  message : String

namespace Report

def Place.text : Place → String
  | unspecified => ""
  | atEnd => " at end"
  | atLexeme lexeme => " at '" ++ lexeme ++ "'"

def Place.ofToken (token : Token) : Place :=
  if token.isEnd then atEnd else atLexeme token.lexeme

def onLine (line : Nat) (message : String) : Report :=
  { line, place := .unspecified, message }

def onToken (token : Token) (message : String) : Report :=
  { line := token.line, place := .ofToken token, message }

def text (report : Report) : String :=
  "[line " ++ Nat.repr report.line ++ "] Error" ++ report.place.text ++ ": " ++ report.message

def textOfAll (reports : List Report) : String :=
  "\n".intercalate (reports.map text)

end Report

end Lox
