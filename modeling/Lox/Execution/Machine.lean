import Lox.Execution.Operators
import Lox.Execution.Scopes
import Lox.Execution.Sink
import Lox.Execution.Step

/-!
# Running steps

A machine performs steps until one fails. A step that fails changes nothing; what the steps before
it did stays, and only the scopes entered on the way are left.
-/

namespace Lox

/-- What one program leaves to the next. -/
structure Session where
  scopes : Scopes
  sink : Sink

/-- A session in the middle of a program, with the number of scopes entered and not yet left. -/
structure Machine extends Session where
  operands : List Value
  entered : Nat

namespace Session

def fresh : Session := { scopes := .empty, sink := .empty }

def begin (session : Session) : Machine := { session with operands := [], entered := 0 }

end Session

namespace Machine

/-- Performs one step. A step without its operands does nothing; no program has one. -/
def perform (m : Machine) (step : Step) : Except RuntimeError Machine :=
  match step, m.operands with
  | .push value, rest => .ok { m with operands := value :: rest }
  | .load name, rest => do
      let value ← m.scopes.load name
      return { m with operands := value :: rest }
  | .store name, value :: _ => do
      let scopes ← m.scopes.store name value
      return { m with scopes }
  | .unary op, operand :: rest => do
      let value ← operand.applyUnary op
      return { m with operands := value :: rest }
  | .binary op, right :: left :: rest => do
      let value ← left.applyBinary op right
      return { m with operands := value :: rest }
  | .drop, _ :: rest => .ok { m with operands := rest }
  | .print keyword, value :: rest =>
      match m.sink.write value.text with
      | .ok sink => .ok { m with sink, operands := rest }
      | .error reason => .error ⟨keyword, .output reason⟩
  | .define name, value :: rest =>
      .ok { m with scopes := m.scopes.define name.lexeme value, operands := rest }
  | .enter, _ => .ok { m with scopes := m.scopes.enter, entered := m.entered + 1 }
  | .leave, _ => .ok { m with scopes := m.scopes.leave, entered := m.entered - 1 }
  | _, _ => .ok m

/-- Performs steps up to the first that fails, where the operands are given up. -/
def run (m : Machine) : List Step → Machine × Option RuntimeError
  | [] => (m, none)
  | step :: rest =>
      match m.perform step with
      | .ok m => m.run rest
      | .error error => ({ m with operands := [] }, some error)

/-- Leaves the scopes that are still entered. -/
def finish (m : Machine) : Session :=
  { scopes := m.scopes.leaveMany m.entered, sink := m.sink }

end Machine

namespace Session

/-- Runs statements in order, up to the first step that fails. -/
def execute (session : Session) (program : List Stmt) : Session × Option RuntimeError :=
  let (m, error) := session.begin.run (Stmt.stepsOfAll program)
  (m.finish, error)

end Session

end Lox
