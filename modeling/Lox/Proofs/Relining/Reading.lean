import Lox.Proofs.Relining.Basic
import Lox.Syntax.Program

/-!
# Reading with other line numbers

Reading never looks at a line number: tokens with other line numbers give the same program and the
same errors, with those line numbers.
-/

namespace Lox

variable (f : Nat → Nat)

def Frame.reline : Frame → Frame
  | group => group
  | unary op => unary (op.reline f)
  | binary op left => binary (op.reline f) (left.reline f)
  | assign name => assign (name.reline f)
  | misplaced equals left => misplaced (equals.reline f) (left.reline f)

def Operand.reline (operand : Operand) : Operand :=
  { frames := operand.frames.map (Frame.reline f), expr := operand.expr.reline f }

def Clause.reline : Clause → Clause
  | print keyword => print (keyword.reline f)
  | declare name => declare (name.reline f)
  | expression => expression

def PartialStmt.reline : PartialStmt → PartialStmt
  | unnamed => unnamed
  | named name => named (name.reline f)
  | waiting clause frames => waiting (clause.reline f) (frames.map (Frame.reline f))
  | ready clause operand => ready (clause.reline f) (operand.reline f)

def Reaction.reline : Reaction → Reaction
  | more stmt => more (stmt.reline f)
  | complete stmt => complete (stmt.reline f)
  | refuse fault => refuse fault

def Position.reline : Position → Position
  | between => between
  | within stmt => within (stmt.reline f)
  | skipping => skipping

def Unfinished.reline (s : Unfinished) : Unfinished :=
  { position := s.position.reline f
    body := s.body.map (Stmt.reline f)
    outer := s.outer.map (List.map (Stmt.reline f))
    errors := s.errors.map (SyntaxError.reline f) }

def Parsed.reline (parsed : Parsed) : Parsed :=
  { program := parsed.program.map (Stmt.reline f)
    errors := parsed.errors.map (SyntaxError.reline f) }

/-! ## Frames -/

theorem Frame.ofTarget_reline (equals : Token) (left : Expr) :
    ofTarget (equals.reline f) (left.reline f) = (ofTarget equals left).reline f := by
  cases left <;> rfl

namespace Operand

theorem applyUnary_reline (frames : List Frame) (e : Expr) :
    applyUnary (frames.map (Frame.reline f)) (e.reline f) = (applyUnary frames e).reline f := by
  induction frames generalizing e with
  | nil => rfl
  | cons frame rest ih =>
      cases frame with
      | unary op => exact ih (.unary op e)
      | group | binary | assign | misplaced => rfl

theorem applyBinary_reline (level : Nat) (frames : List Frame) (e : Expr) :
    applyBinary level (frames.map (Frame.reline f)) (e.reline f) =
      (applyBinary level frames e).reline f := by
  induction frames generalizing e with
  | nil => rfl
  | cons frame rest ih =>
      cases frame with
      | binary op left =>
          by_cases hlevel : level ≤ op.kind.precedence
          · simpa [Frame.reline, Expr.reline, applyBinary, hlevel] using ih (.binary op left e)
          · simp [Frame.reline, applyBinary, hlevel, reline]
      | group | unary | assign | misplaced => rfl

theorem close_reline (errors : List SyntaxError) (frames : List Frame) (e : Expr) :
    close (errors.map (SyntaxError.reline f)) (frames.map (Frame.reline f)) (e.reline f) =
      ((close errors frames e).1.map (SyntaxError.reline f),
        (close errors frames e).2.reline f) := by
  induction frames generalizing errors e with
  | nil => rfl
  | cons frame rest ih =>
      cases frame with
      | group => rfl
      | unary op => exact ih errors (.unary op e)
      | binary op left => exact ih errors (.binary op left e)
      | assign name => exact ih errors (.assign name e)
      | misplaced equals left => exact ih (⟨equals, .badTarget⟩ :: errors) left

end Operand

theorem Token.operand?_reline (token : Token) :
    (token.reline f).operand? = token.operand?.map (Expr.reline f) := by
  unfold operand?
  rw [reline_kind, reline_literal]
  split
  · rfl
  · rfl
  · rfl
  · cases token.literal <;> rfl
  · cases token.literal <;> rfl
  · rfl
  · rfl

/-! ## Statements -/

theorem Clause.complete_reline (e : Expr) (clause : Clause) :
    (clause.reline f).complete (e.reline f) = (clause.complete e).reline f := by
  cases clause <;> rfl

theorem Clause.unended_reline (clause : Clause) : (clause.reline f).unended = clause.unended := by
  cases clause <;> rfl

namespace PartialStmt

theorem readOperand_reline (clause : Clause) (frames : List Frame) (token : Token) :
    readOperand (clause.reline f) (frames.map (Frame.reline f)) (token.reline f) =
      (readOperand clause frames token).reline f := by
  unfold readOperand
  rw [Token.reline_kind]
  split
  · rfl
  · rfl
  · rfl
  · rw [Token.operand?_reline]
    cases token.operand? with
    | none => rfl
    | some e =>
        have happly := Operand.applyUnary_reline f frames e
        exact congrArg (fun o ↦ Reaction.more (ready _ o)) happly

theorem readClosing_reline (clause : Clause) (operand : Operand) (token : Token) :
    readClosing (clause.reline f) (operand.reline f) (token.reline f) =
      (readClosing clause operand token).reline f := by
  obtain ⟨frames, e⟩ := operand
  cases frames with
  | nil =>
      by_cases hkind : token.kind = .semicolon
      · simp [readClosing, Operand.reline, hkind, Reaction.reline, Clause.complete_reline]
      · simp [readClosing, Operand.reline, Reaction.reline, Clause.unended_reline]
  | cons frame rest =>
      cases frame with
      | group =>
          by_cases hkind : token.kind = .rightParen
          · have hgroup := Operand.applyUnary_reline f rest (.group e)
            rw [Expr.reline] at hgroup
            simp [readClosing, Operand.reline, Frame.reline, hkind, Reaction.reline, reline, hgroup]
          · simp [readClosing, Operand.reline, Frame.reline, hkind, Reaction.reline]
      | unary | binary | assign | misplaced => rfl

theorem readOperator_reline (clause : Clause) (operand : Operand) (token : Token) :
    readOperator (clause.reline f) (operand.reline f) (token.reline f) =
      ((readOperator clause operand token).1.map (SyntaxError.reline f),
        (readOperator clause operand token).2.reline f) := by
  have hbinary (level : Nat) := Operand.applyBinary_reline f level operand.frames operand.expr
  have hclose := Operand.close_reline f [] operand.frames operand.expr
  unfold readOperator
  by_cases hlevel : token.kind.precedence = 0
  · by_cases hequal : token.kind = .equal
    · simp [hequal, Kind.precedence, Operand.reline, hbinary, Reaction.reline, reline,
        Frame.ofTarget_reline]
    · simp only [Token.reline_kind, hlevel, ne_eq, not_true_eq_false, ↓reduceIte, hequal]
      rw [show Operand.close [] (operand.reline f).frames (operand.reline f).expr = _ from hclose]
      exact congrArg _ (readClosing_reline f clause _ token)
  · simp [hlevel, Operand.reline, hbinary, Reaction.reline, reline, Frame.reline]

theorem read_reline (token : Token) (stmt : PartialStmt) :
    (stmt.reline f).read (token.reline f) =
      ((stmt.read token).1.map (SyntaxError.reline f), (stmt.read token).2.reline f) := by
  cases stmt with
  | unnamed =>
      by_cases hkind : token.kind = .identifier <;>
        simp [reline, PartialStmt.read, hkind, Reaction.reline]
  | named name =>
      simp only [reline, PartialStmt.read, Token.reline_kind]
      split <;> rfl
  | waiting clause frames => exact congrArg _ (readOperand_reline f clause frames token)
  | ready clause operand => exact readOperator_reline f clause operand token

end PartialStmt

/-! ## Programs -/

namespace Unfinished

theorem refuse_reline (s : Unfinished) (token : Token) (fault : SyntaxFault) :
    (s.reline f).refuse (token.reline f) fault = (s.refuse token fault).reline f := by
  by_cases hkind : token.kind = .semicolon <;>
    simp [refuse, reline, hkind, Position.reline, SyntaxError.reline]

theorem readWithin_reline (s : Unfinished) (stmt : PartialStmt) (token : Token) :
    (s.reline f).readWithin (stmt.reline f) (token.reline f) =
      (s.readWithin stmt token).reline f := by
  unfold readWithin
  rw [PartialStmt.read_reline]
  rcases stmt.read token with ⟨errors, next | result | fault⟩
  · simp [reline, Reaction.reline, Position.reline]
  · simp [reline, Reaction.reline, Position.reline, add]
  · simpa [reline, Reaction.reline] using
      refuse_reline f { s with errors := errors ++ s.errors } token fault

theorem readBetween_reline (s : Unfinished) (token : Token) :
    (s.reline f).readBetween (token.reline f) = (s.readBetween token).reline f := by
  have hexpression := readWithin_reline f s (.waiting .expression []) token
  obtain ⟨position, body, outer, errors⟩ := s
  unfold readBetween
  rw [Token.reline_kind]
  cases token.kind with
  | leftBrace => rfl
  | rightBrace =>
      cases outer with
      | nil => exact hexpression
      | cons inner outer =>
          simp [reline, Stmt.reline, Stmt.relineAll_eq_map]
  | keyword word =>
      cases word with
      | varWord | printWord => rfl
      | _ => exact hexpression
  | _ => exact hexpression

theorem read_reline (s : Unfinished) (token : Token) :
    (s.reline f).read (token.reline f) = (s.read token).reline f := by
  obtain ⟨position, body, outer, errors⟩ := s
  cases position with
  | between => exact readBetween_reline f _ token
  | within stmt => exact readWithin_reline f _ stmt token
  | skipping =>
      have hbetween := readBetween_reline f ⟨.between, body, outer, errors⟩ token
      by_cases hsemicolon : token.kind = .semicolon
      · simp [read, reline, Position.reline, hsemicolon]
      · by_cases hstarts : token.kind.startsDeclaration
        · simpa [read, reline, Position.reline, hsemicolon, hstarts] using hbetween
        · simp [read, reline, Position.reline, hsemicolon, hstarts]

theorem foldl_read_reline (tokens : List Token) (s : Unfinished) :
    (tokens.map (Token.reline f)).foldl read (s.reline f) = (tokens.foldl read s).reline f := by
  induction tokens generalizing s with
  | nil => rfl
  | cons token rest ih => rw [List.map_cons, List.foldl_cons, read_reline, ih, List.foldl_cons]

/-- The program and the errors behind the last token. -/
def result (s : Unfinished) (ending : Token) : Parsed :=
  { program := (s.outer.getLast?.getD s.body).reverse
    errors := s.errors.reverse ++ s.outer.map fun _ ↦ ⟨ending, .unclosedBlock⟩ }

theorem result_reline (s : Unfinished) (ending : Token) :
    (s.reline f).result (ending.reline f) = (s.result ending).reline f := by
  simp only [result, reline, Parsed.reline, List.getLast?_map]
  cases s.outer.getLast? <;> simp [SyntaxError.reline, Function.comp_def]

theorem finish_reline (s : Unfinished) (ending : Token) :
    (s.reline f).finish (ending.reline f) = (s.finish ending).reline f := by
  obtain ⟨position, body, outer, errors⟩ := s
  cases position with
  | between | skipping => exact result_reline f _ ending
  | within stmt =>
      refine Eq.trans ?_ (result_reline f (readWithin ⟨_, body, outer, errors⟩ stmt ending) ending)
      exact congrArg (result · (ending.reline f)) (readWithin_reline f _ stmt ending)

end Unfinished

/-- Reading tokens with other line numbers gives the same program and errors, with those numbers. -/
theorem Parsed.ofTokens_reline (tokens : List Token) :
    ofTokens (tokens.map (Token.reline f)) = (ofTokens tokens).reline f := by
  unfold ofTokens
  rw [List.getLast?_map]
  cases tokens.getLast? with
  | none => rfl
  | some last =>
      have hfind : (tokens.map (Token.reline f)).find? Token.isEnd =
          (tokens.find? Token.isEnd).map (Token.reline f) := by
        simp [List.find?_map, Function.comp_def]
      have hwhile : (tokens.map (Token.reline f)).takeWhile (fun token ↦ !token.isEnd) =
          (tokens.takeWhile fun token ↦ !token.isEnd).map (Token.reline f) := by
        simp [List.takeWhile_map, Function.comp_def]
      have hending : ((tokens.find? Token.isEnd).map (Token.reline f)).getD
          (.endOfInput (last.reline f).line) =
            ((tokens.find? Token.isEnd).getD (.endOfInput last.line)).reline f := by
        cases tokens.find? Token.isEnd <;> rfl
      dsimp only [Option.map_some]
      rw [hfind, hwhile, hending, ← Unfinished.finish_reline, ← Unfinished.foldl_read_reline]
      rfl

end Lox
