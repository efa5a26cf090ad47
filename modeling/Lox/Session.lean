import Lox.Execution.Machine
import Lox.Failure
import Lox.Syntax.Program

/-!
# Running sources in a session

A source is scanned, parsed and executed; the first of these that finds errors stops it. Bindings
and printed lines stay for the sources that follow, also when a source fails.
-/

namespace Lox

/-- The program of a source, or why it has none. -/
def programOf (source : String) : Except Failure (List Stmt) :=
  let scan := Scan.ofSource source
  if scan.errors.isEmpty then
    let parsed := Parsed.ofTokens scan.tokens
    if parsed.errors.isEmpty then .ok parsed.program else .error (.parse parsed.errors)
  else .error (.scan scan.errors)

namespace Session

def run (session : Session) (source : String) : Session × Option Failure :=
  match programOf source with
  | .error failure => (session, some failure)
  | .ok program =>
      let (session, error) := session.execute program
      (session, error.map .runtime)

def clearOutput (session : Session) : Session := { session with sink := session.sink.clear }

end Session

end Lox
