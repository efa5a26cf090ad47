import Lox.Execution.Fault
import Lox.Source.Scan
import Lox.Syntax.Fault

/-!
# Failures of a program
-/

namespace Lox

/-- The stage at which a program stops. -/
inductive Stage where
  | scan
  | parse
  | runtime
deriving DecidableEq

/-- Whether nothing has been executed when a program stops here. -/
def Stage.isStatic : Stage → Bool
  | scan | parse => true
  | runtime => false

inductive Failure where
  | scan (errors : List ScanError)
  | parse (errors : List SyntaxError)
  | runtime (error : RuntimeError)

namespace Failure

def stage : Failure → Stage
  | scan _ => .scan
  | parse _ => .parse
  | runtime _ => .runtime

def reports : Failure → List Report
  | scan errors => errors.map ScanError.report
  | parse errors => errors.map SyntaxError.report
  | runtime error => [error.report]

def isStatic (failure : Failure) : Bool := failure.stage.isStatic

def text (failure : Failure) : String := Report.textOfAll failure.reports

end Failure

end Lox
