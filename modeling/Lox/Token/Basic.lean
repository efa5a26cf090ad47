import Lox.Number.Layout
import Lox.Token.Kind

/-!
# Tokens

A token keeps the text it was cut from, the line that text ends on, and for numbers and strings the
value that the text denotes.
-/

namespace Lox

inductive Literal where
  | number (value : Float)
  | string (value : String)

structure Token where
  kind : Kind
  lexeme : String
  literal : Option Literal
  line : Nat

/-- Listed numbers show a point or an exponent, and have an exponent below `0.0001` and from
`10 ^ 16` on. -/
def Literal.numberLayout : Number.Layout where
  notANumber := "NaN"
  isPositional code _ := Number.nearest 1 10000 ≤ code && code < Number.nearest 10000000000000000 1
  wholeMark := ".0"
  plusMark := ""
  exponentWidth := 1

def Literal.text : Literal → String
  | number x => numberLayout.write x
  | string s => s

namespace Token

/-- A token that denotes no value. -/
def plain (kind : Kind) (lexeme : String) (line : Nat) : Token :=
  { kind, lexeme, literal := none, line }

/-- The token after the last one. -/
def endOfInput (line : Nat) : Token := plain .eof "" line

def isEnd (token : Token) : Bool := token.kind == .eof

def listing (token : Token) : String :=
  let value := match token.literal with
    | some literal => literal.text
    | none => "null"
  token.kind.name ++ " " ++ token.lexeme ++ " " ++ value

end Token

end Lox
