import Lox.Syntax.Statement

/-!
# Programs read from the left

Each token is read once. A token that is refused ends the statement it stands in; reading goes on
behind the next semicolon or in front of the next word that can only begin a statement. The end of
input ends every open block, the innermost first.
-/

namespace Lox

inductive Position where
  | between
  | within (stmt : PartialStmt)
  /-- Behind an error, before the next statement. -/
  | skipping

/-- A program of which some tokens have been read. Statements and errors stand last first, the
statements around an open block innermost first. -/
structure Unfinished where
  position : Position
  body : List Stmt
  outer : List (List Stmt)
  errors : List SyntaxError

/-- A program as it was read, and its errors in the order in which they came to light. -/
structure Parsed where
  program : List Stmt
  errors : List SyntaxError

namespace Unfinished

def start : Unfinished := { position := .between, body := [], outer := [], errors := [] }

def add (s : Unfinished) (stmt : Stmt) : Unfinished :=
  { s with position := .between, body := stmt :: s.body }

/-- A semicolon ends the faulty statement even where it is refused. -/
def refuse (s : Unfinished) (token : Token) (fault : SyntaxFault) : Unfinished :=
  { s with
    position := if token.kind = .semicolon then .between else .skipping
    errors := ⟨token, fault⟩ :: s.errors }

def openBlock (s : Unfinished) : Unfinished :=
  { s with body := [], outer := s.body :: s.outer }

def readWithin (s : Unfinished) (stmt : PartialStmt) (token : Token) : Unfinished :=
  let (errors, reaction) := stmt.read token
  let s := { s with errors := errors ++ s.errors }
  match reaction with
  | .more stmt => { s with position := .within stmt }
  | .complete stmt => s.add stmt
  | .refuse fault => s.refuse token fault

/-- Reads the first token of a statement, or the end of a block. -/
def readBetween (s : Unfinished) (token : Token) : Unfinished :=
  match token.kind, s.outer with
  | .keyword .varWord, _ => { s with position := .within .unnamed }
  | .keyword .printWord, _ => { s with position := .within (.waiting (.print token) []) }
  | .leftBrace, _ => s.openBlock
  | .rightBrace, body :: outer => { s with body := .block s.body.reverse :: body, outer }
  | _, _ => s.readWithin (.waiting .expression []) token

def read (s : Unfinished) (token : Token) : Unfinished :=
  match s.position with
  | .between => s.readBetween token
  | .within stmt => s.readWithin stmt token
  | .skipping =>
      if token.kind = .semicolon then { s with position := .between }
      else if token.kind.startsDeclaration then { s with position := .between }.readBetween token
      else s

def finish (s : Unfinished) (ending : Token) : Parsed :=
  let s := match s.position with
    | .within stmt => s.readWithin stmt ending
    | .between | .skipping => s
  { program := (s.outer.getLast?.getD s.body).reverse
    errors := s.errors.reverse ++ s.outer.map fun _ => ⟨ending, .unclosedBlock⟩ }

end Unfinished

/-- Reads a list of tokens as a program. Reading stops at the first end of input, and a list without
one ends on the line of its last token. -/
def Parsed.ofTokens (tokens : List Token) : Parsed :=
  match tokens.getLast? with
  | none => { program := [], errors := [] }
  | some last =>
      let ending := (tokens.find? Token.isEnd).getD (.endOfInput last.line)
      ((tokens.takeWhile fun token => !token.isEnd).foldl Unfinished.read .start).finish ending

end Lox
