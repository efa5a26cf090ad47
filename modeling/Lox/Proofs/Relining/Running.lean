import Lox.Execution.Meaning
import Lox.Proofs.Relining.Basic

/-!
# Running with other line numbers

Evaluation never looks at a line number: a tree with other line numbers prints the same, leaves the
same bindings and fails at the same token.
-/

namespace Lox

variable (f : Nat → Nat)

theorem mapError_ok {ε ε' α : Type} (g : ε → ε') (value : α) :
    (Except.ok value).mapError g = .ok value := rfl

theorem Value.applyUnary_reline (operand : Value) (op : Token) :
    operand.applyUnary (op.reline f) =
      (operand.applyUnary op).mapError (RuntimeError.reline f) := by
  unfold applyUnary
  rw [Token.reline_kind]
  split <;> rfl

theorem Value.applyNumeric_reline (op : Token) (x y : Float) :
    applyNumeric (op.reline f) x y = (applyNumeric op x y).mapError (RuntimeError.reline f) := by
  unfold applyNumeric
  rw [Token.reline_kind]
  split <;> rfl

theorem Value.applyBinary_reline (left : Value) (op : Token) (right : Value) :
    left.applyBinary (op.reline f) right =
      (left.applyBinary op right).mapError (RuntimeError.reline f) := by
  unfold applyBinary
  rw [Token.reline_kind]
  split <;> first | rfl | exact applyNumeric_reline f op _ _

theorem Scopes.load_reline (scopes : Scopes) (name : Token) :
    scopes.load (name.reline f) = (scopes.load name).mapError (RuntimeError.reline f) := by
  unfold load
  rw [Token.reline_lexeme]
  split <;> rfl

theorem Scopes.store_reline (scopes : Scopes) (name : Token) (value : Value) :
    scopes.store (name.reline f) value =
      (scopes.store name value).mapError (RuntimeError.reline f) := by
  unfold store
  rw [Token.reline_lexeme]
  split <;> rfl

theorem Expr.eval_reline (e : Expr) (scopes : Scopes) :
    (e.reline f).eval scopes =
      ((e.eval scopes).1, (e.eval scopes).2.mapError (RuntimeError.reline f)) := by
  induction e generalizing scopes with
  | literal value => rfl
  | group inner ih => exact ih scopes
  | unary op operand ih =>
      simp only [reline, eval, ih]
      rcases operand.eval scopes with ⟨scopes, error | value⟩
      · rfl
      · exact congrArg _ (Value.applyUnary_reline f value op)
  | binary op left right ihl ihr =>
      simp only [reline, eval, ihl]
      rcases left.eval scopes with ⟨scopes, error | a⟩
      · rfl
      · simp only [mapError_ok, ihr]
        rcases right.eval scopes with ⟨scopes, error | b⟩
        · rfl
        · exact congrArg _ (Value.applyBinary_reline f a op b)
  | var name => exact congrArg _ (Scopes.load_reline f scopes name)
  | assign name value ih =>
      simp only [reline, eval, ih]
      rcases value.eval scopes with ⟨scopes, error | v⟩
      · rfl
      · simp only [mapError_ok, Scopes.store_reline]
        cases scopes.store name v <;> rfl

mutual

theorem Stmt.exec_reline (s : Stmt) (session : Session) :
    (s.reline f).exec session =
      ((s.exec session).1, (s.exec session).2.map (RuntimeError.reline f)) := by
  match s with
  | .expression e =>
      simp only [Stmt.reline, Stmt.exec, Expr.eval_reline]
      rcases e.eval session.scopes with ⟨scopes, error | value⟩ <;> rfl
  | .print keyword e =>
      simp only [Stmt.reline, Stmt.exec, Expr.eval_reline]
      rcases e.eval session.scopes with ⟨scopes, error | value⟩
      · rfl
      · simp only [mapError_ok]
        cases session.sink.write value.text <;> rfl
  | .declare name none => rfl
  | .declare name (some e) =>
      simp only [Stmt.reline, Option.map, Stmt.exec, Expr.eval_reline]
      rcases e.eval session.scopes with ⟨scopes, error | value⟩ <;> rfl
  | .block body => simp only [Stmt.reline, Stmt.exec, Stmt.execAll_relineAll body]

theorem Stmt.execAll_relineAll (program : List Stmt) (session : Session) :
    Stmt.execAll session (Stmt.relineAll f program) =
      ((Stmt.execAll session program).1,
        (Stmt.execAll session program).2.map (RuntimeError.reline f)) := by
  match program with
  | [] => rfl
  | s :: rest =>
      simp only [Stmt.relineAll, Stmt.execAll, Stmt.exec_reline s]
      rcases s.exec session with ⟨session, _ | error⟩
      · exact Stmt.execAll_relineAll rest session
      · rfl

end

end Lox
