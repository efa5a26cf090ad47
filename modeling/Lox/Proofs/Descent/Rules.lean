import Lox.Proofs.Descent.Cursor
import Lox.Proofs.Grammar.Placement

/-!
# Reading by descent

The grammar read by one walk for each of its rules. A walk stands where its rule starts, calls the
walks of the rules that it is made of, and leaves the cursor behind the last token that it has used.
Nothing bounds the recursion: that it comes to an end is a theorem.
-/

namespace Lox.Descent

namespace Tokens

/-! ## Expressions -/

mutual

/-- What stands on the left is read before it turns out to be the target of an assignment. -/
def assignment (tokens : Tokens) : Rule Expr := do
  let target ← tokens |>.binary 1
  if ← tokens.accept [.equal] then
    let equals ← tokens.previous
    let value ← tokens |>.assignment
    match target with
    | .var name => return .assign name value
    | _ =>
        note ⟨equals, .badTarget⟩
        return target
  else
    return target
partial_fixpoint

/-- The levels `1` to `4` are those of the binary operators. -/
def binary (tokens : Tokens) (level : Nat) : Rule Expr := do
  if level < 5 then
    let left ← tokens |>.binary (level + 1)
    tokens |>.operators level left
  else
    tokens |>.unary
partial_fixpoint

/-- The operators of a level behind their left operand, as long as there are any. -/
def operators (tokens : Tokens) (level : Nat) (left : Expr) : Rule Expr := do
  if ← tokens.accept (Kind.operatorsAt level) then
    let op ← tokens.previous
    let right ← tokens |>.binary (level + 1)
    tokens |>.operators level (.binary op left right)
  else
    return left
partial_fixpoint

def unary (tokens : Tokens) : Rule Expr := do
  if ← tokens.accept [.bang, .minus] then
    let op ← tokens.previous
    let operand ← tokens |>.unary
    return .unary op operand
  else
    tokens |>.primary
partial_fixpoint

def primary (tokens : Tokens) : Rule Expr := do
  let token ← tokens.peek
  if token.kind = .leftParen then
    let _ ← tokens.advance
    let inner ← tokens |>.assignment
    let _ ← tokens.expect .rightParen .unclosedGroup
    return .group inner
  else
    match token.operand? with
    | some e =>
        let _ ← tokens.advance
        return e
    | none => throw ⟨token, .missingOperand⟩
partial_fixpoint

end

/-! ## Statements -/

/-- An expression, and the semicolon that ends the statement. -/
def ended (tokens : Tokens) (clause : Clause) : Rule Stmt := do
  let value ← tokens.assignment
  let _ ← tokens.expect .semicolon clause.unended
  return clause.complete value

def variableDeclaration (tokens : Tokens) : Rule Stmt := do
  let name ← tokens.expect .identifier .missingName
  if ← tokens.accept [.equal] then
    tokens.ended (.declare name)
  else
    let _ ← tokens.expect .semicolon .unendedDeclaration
    return .declare name none

/-- Skips tokens up to one that can only begin a statement, or to behind a semicolon. -/
def seekBoundary (tokens : Tokens) : Walk Unit := do
  if ← tokens.atEnd then
    return
  else if (← tokens.previous).kind = .semicolon then
    return
  else if (← tokens.peek).kind.startsDeclaration then
    return
  else
    let _ ← tokens.advance
    tokens |>.seekBoundary
partial_fixpoint

/-- Skips the token at an error in any case. -/
def synchronize (tokens : Tokens) : Walk Unit := do
  let _ ← tokens.advance
  tokens.seekBoundary

mutual

/-- No error leaves a declaration: it is noted, and the declaration left out. -/
def declaration (tokens : Tokens) : Walk (Option Stmt) := do
  let result ← (do
    if ← tokens.accept [.keyword .varWord] then
      tokens.variableDeclaration.run
    else
      tokens |>.statement)
  match result with
  | .ok stmt => return some stmt
  | .error error =>
      note error
      tokens.synchronize
      return none
partial_fixpoint

def statement (tokens : Tokens) : Walk (Except SyntaxError Stmt) := do
  if ← tokens.accept [.keyword .printWord] then
    let word ← tokens.previous
    (tokens.ended (.print word)).run
  else if ← tokens.accept [.leftBrace] then
    let body ← tokens |>.block
    return body.map .block
  else
    (tokens.ended .expression).run
partial_fixpoint

/-- The inside of a block and the brace that closes it. -/
def block (tokens : Tokens) : Walk (Except SyntaxError (List Stmt)) := do
  let body ← tokens |>.blockBody []
  let closing ← (tokens.expect .rightBrace .unclosedBlock).run
  return closing.map fun _ ↦ body.reverse
partial_fixpoint

/-- Declarations up to a closing brace, behind those given, which stand last first. -/
def blockBody (tokens : Tokens) (body : List Stmt) : Walk (List Stmt) := do
  if ← tokens.check .rightBrace then
    return body
  else if ← tokens.atEnd then
    return body
  else
    match ← tokens |>.declaration with
    | some stmt => tokens |>.blockBody (stmt :: body)
    | none => tokens |>.blockBody body
partial_fixpoint

end

/-- Declarations up to the end of input, behind those given, which stand last first. -/
def declarations (tokens : Tokens) (body : List Stmt) : Walk (List Stmt) := do
  if ← tokens.atEnd then
    return body
  else
    match ← tokens.declaration with
    | some stmt => tokens |>.declarations (stmt :: body)
    | none => tokens |>.declarations body
partial_fixpoint

end Tokens

/-- Reads a list of tokens as a program. -/
def parse (tokens : List Token) : Option Parsed :=
  if tokens = [] then some { program := [], errors := [] }
  else (Tokens.declarations (terminated tokens) [] .start).map fun (body, s) ↦
    { program := body.reverse, errors := s.errors.reverse }

end Lox.Descent
