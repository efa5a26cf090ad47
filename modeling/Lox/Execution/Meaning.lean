import Lox.Execution.Machine

/-!
# Meaning of programs

What expressions and statements do, by recursion on their trees. Running the steps of a program does
the same, `execute_eq`.
-/

namespace Lox

namespace Session

def enter (session : Session) : Session := { session with scopes := session.scopes.enter }

def leave (session : Session) : Session := { session with scopes := session.scopes.leave }

end Session

/-- The value of an expression, or the step that fails, and the bindings that it leaves. -/
def Expr.eval (scopes : Scopes) : Expr → Scopes × Except RuntimeError Value
  | literal value => (scopes, .ok value)
  | group inner => inner.eval scopes
  | unary op operand =>
      match operand.eval scopes with
      | (scopes, .ok value) => (scopes, value.applyUnary op)
      | (scopes, .error error) => (scopes, .error error)
  | binary op left right =>
      match left.eval scopes with
      | (scopes, .ok a) =>
          match right.eval scopes with
          | (scopes, .ok b) => (scopes, a.applyBinary op b)
          | (scopes, .error error) => (scopes, .error error)
      | (scopes, .error error) => (scopes, .error error)
  | var name => (scopes, scopes.load name)
  | assign name value =>
      match value.eval scopes with
      | (scopes, .ok v) =>
          match scopes.store name v with
          | .ok scopes => (scopes, .ok v)
          | .error error => (scopes, .error error)
      | (scopes, .error error) => (scopes, .error error)

mutual

/-- What a statement does to a session, and the step that fails. -/
def Stmt.exec (session : Session) : Stmt → Session × Option RuntimeError
  | .expression e =>
      match e.eval session.scopes with
      | (scopes, .ok _) => ({ session with scopes }, none)
      | (scopes, .error error) => ({ session with scopes }, some error)
  | .print keyword e =>
      match e.eval session.scopes with
      | (scopes, .ok value) =>
          match session.sink.write value.text with
          | .ok sink => ({ scopes, sink }, none)
          | .error reason => ({ session with scopes }, some ⟨keyword, .output reason⟩)
      | (scopes, .error error) => ({ session with scopes }, some error)
  | .declare name none =>
      ({ session with scopes := session.scopes.define name.lexeme .nil }, none)
  | .declare name (some e) =>
      match e.eval session.scopes with
      | (scopes, .ok value) => ({ session with scopes := scopes.define name.lexeme value }, none)
      | (scopes, .error error) => ({ session with scopes }, some error)
  | .block body =>
      match Stmt.execAll session.enter body with
      | (session, error) => (session.leave, error)

/-- What statements in a row do, up to the first that fails. -/
def Stmt.execAll (session : Session) : List Stmt → Session × Option RuntimeError
  | [] => (session, none)
  | s :: rest =>
      match s.exec session with
      | (session, none) => Stmt.execAll session rest
      | (session, some error) => (session, some error)

end

/-! ## Steps do what trees mean -/

namespace Machine

/-- Putting a value on the operands, or failing with the operands given up. -/
def receive (m : Machine) (rest : List Step) : Scopes × Except RuntimeError Value →
    Machine × Option RuntimeError
  | (scopes, .ok value) => { m with scopes, operands := value :: m.operands }.run rest
  | (scopes, .error error) => ({ m with scopes, operands := [] }, some error)

theorem run_steps_expr (e : Expr) (m : Machine) (rest : List Step) :
    m.run (e.steps ++ rest) = m.receive rest (e.eval m.scopes) := by
  induction e generalizing m rest with
  | literal value => simp [run, perform, Expr.eval, receive]
  | group inner ih => simpa [Expr.eval] using ih m rest
  | unary op operand ih =>
      rw [Expr.steps_unary, List.append_assoc, ih]
      rcases h : operand.eval m.scopes with ⟨scopes, value | value⟩
      · simp [receive, Expr.eval, h]
      · cases ha : value.applyUnary op <;>
          simp [receive, Expr.eval, h, run, perform, ha, bind, Except.bind, pure, Except.pure]
  | binary op left right ihl ihr =>
      rw [Expr.steps_binary, List.append_assoc, List.append_assoc, ihl]
      rcases hl : left.eval m.scopes with ⟨scopes, a | a⟩
      · simp [receive, Expr.eval, hl]
      · simp only [receive, ihr, Expr.eval, hl]
        rcases hr : right.eval scopes with ⟨scopes, b | b⟩
        · simp
        · cases ha : a.applyBinary op b <;>
            simp [run, perform, ha, bind, Except.bind, pure, Except.pure]
  | var name =>
      cases h : m.scopes.load name <;>
        simp [run, perform, Expr.eval, receive, h, bind, Except.bind, pure, Except.pure]
  | assign name value ih =>
      rw [Expr.steps_assign, List.append_assoc, ih]
      rcases h : value.eval m.scopes with ⟨scopes, v | v⟩
      · simp [receive, Expr.eval, h]
      · cases hs : scopes.store name v <;>
          simp [receive, Expr.eval, h, run, perform, hs, bind, Except.bind, pure, Except.pure]

/-- What running steps leaves behind. -/
def outcome (m : Machine) (steps : List Step) : Session × Option RuntimeError :=
  ((m.run steps).1.finish, (m.run steps).2)

/-- Going on with a session, or failing in it. -/
def resume (m : Machine) (rest : List Step) : Session × Option RuntimeError →
    Session × Option RuntimeError
  | (session, none) => { m with toSession := session }.outcome rest
  | (session, some error) => ({ m with toSession := session }.finish, some error)

theorem outcome_steps_expr (e : Expr) (m : Machine) (rest : List Step) :
    m.outcome (e.steps ++ rest) =
      match e.eval m.scopes with
      | (scopes, .ok value) => { m with scopes, operands := value :: m.operands }.outcome rest
      | (scopes, .error error) => ({ m with scopes }.finish, some error) := by
  rcases h : e.eval m.scopes with ⟨scopes, value | value⟩ <;>
    simp [outcome, run_steps_expr, h, receive, finish]

theorem finish_entered_succ (m : Machine) (session : Session) :
    ({ m with toSession := session, entered := m.entered + 1 } : Machine).finish =
      ({ m with toSession := session.leave } : Machine).finish := rfl

mutual

theorem outcome_steps_stmt (s : Stmt) (m : Machine) (rest : List Step) :
    m.outcome (s.steps ++ rest) = m.resume rest (s.exec m.toSession) := by
  match s with
  | .expression e =>
      rw [Stmt.steps_expression, List.append_assoc, outcome_steps_expr]
      rcases h : e.eval m.scopes with ⟨scopes, value | value⟩ <;>
        simp [Stmt.exec, h, resume, outcome, run, perform]
  | .print keyword e =>
      rw [Stmt.steps_print, List.append_assoc, outcome_steps_expr]
      rcases h : e.eval m.scopes with ⟨scopes, value | value⟩
      · simp [Stmt.exec, h, resume]
      · cases hw : m.sink.write value.text <;>
          simp [Stmt.exec, h, hw, resume, outcome, run, perform, finish]
  | .declare name none =>
      simp [Stmt.exec, resume, outcome, run, perform]
  | .declare name (some e) =>
      rw [Stmt.steps_declare_some, List.append_assoc, outcome_steps_expr]
      rcases h : e.eval m.scopes with ⟨scopes, value | value⟩ <;>
        simp [Stmt.exec, h, resume, outcome, run, perform]
  | .block body =>
      have hbody := outcome_steps_all body
        { m with scopes := m.scopes.enter, entered := m.entered + 1 } (.leave :: rest)
      have henter : m.outcome ((Stmt.block body).steps ++ rest) =
          ({ m with scopes := m.scopes.enter, entered := m.entered + 1 } : Machine).outcome
            (Stmt.stepsOfAll body ++ .leave :: rest) := by
        simp [outcome, run, perform]
      rw [henter, hbody]
      rcases h : Stmt.execAll m.toSession.enter body with ⟨session, _ | error⟩
      · have hexec : Stmt.execAll ⟨m.scopes.enter, m.sink⟩ body = (session, none) := h
        simp [Stmt.exec, h, hexec, resume, outcome, run, perform, Session.leave]
      · have hexec : Stmt.execAll ⟨m.scopes.enter, m.sink⟩ body = (session, some error) := h
        simp [Stmt.exec, h, hexec, resume, finish_entered_succ]

theorem outcome_steps_all (program : List Stmt) (m : Machine) (rest : List Step) :
    m.outcome (Stmt.stepsOfAll program ++ rest) =
      m.resume rest (Stmt.execAll m.toSession program) := by
  match program with
  | [] => simp [Stmt.execAll, resume]
  | s :: program =>
      rw [Stmt.stepsOfAll_cons, List.append_assoc, outcome_steps_stmt s]
      rcases h : s.exec m.toSession with ⟨session, _ | error⟩
      · simp [Stmt.execAll, h, resume, outcome_steps_all program]
      · simp [Stmt.execAll, h, resume]

end

end Machine

/-- Running the steps of a program does what the program means. -/
theorem Session.execute_eq (session : Session) (program : List Stmt) :
    session.execute program = Stmt.execAll session program := by
  have h := session.begin.outcome_steps_all program []
  rw [List.append_nil, show session.begin.toSession = session from rfl] at h
  refine Eq.trans h ?_
  rcases Stmt.execAll session program with ⟨result, _ | error⟩ <;> rfl

end Lox
