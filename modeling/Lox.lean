import Lox.Execution.Meaning
import Lox.Main
import Lox.Proofs.Grammar.Derivation
import Lox.Proofs.Grammar.Reading
import Lox.Proofs.Grammar.Acceptance
import Lox.Proofs.Grammar.Panic
import Lox.Proofs.Relining.Basic
import Lox.Proofs.Relining.Reading
import Lox.Proofs.Relining.Running
import Lox.Proofs.Source.Joining
import Lox.Proofs.Source.Division
import Lox.Proofs.Session.Joined
import Lox.Proofs.Session.Respaced
import Lox.Proofs.Execution.Order
import Lox.Proofs.Scoping.Lexical
import Lox.Proofs.Grammar.Independence
import Lox.Proofs.Grammar.Earliest
import Lox.Proofs.Grammar.Recovery
import Lox.Proofs.Scoping.Changes
import Lox.Proofs.Session.Errors
import Lox.Proofs.Grammar.Writing
import Lox.Proofs.Session.Diagnostics
import Lox.Proofs.Execution.Printing
import Lox.Proofs.Command.Lines
import Lox.Proofs.Command.Modes
import Lox.Proofs.Command.Prompt
import Lox.Proofs.Command.Refusal
import Lox.Proofs.Number.Bits
import Lox.Proofs.Number.Rounding
import Lox.Proofs.Number.ReadingBack
import Lox.Proofs.Number.Numeral
import Lox.Proofs.Number.Fields
import Lox.Proofs.Number.Distance
import Lox.Proofs.Number.Reduced
import Lox.Proofs.Number.Fewest
import Lox.Proofs.Number.Shape
import Lox.Proofs.Number.Printed
import Lox.Proofs.Dump.Form
import Lox.Proofs.Dump.Plain
import Lox.Proofs.Dump.Unambiguous
import Lox.Proofs.Number.Literals
import Lox.Proofs.Number.Listed
import Lox.Proofs.Session.Reprinting
import Lox.Proofs.Source.LineNumbers
import Lox.Proofs.Scoping.Bindings
import Lox.Proofs.Scoping.ByName
import Lox.Proofs.Grammar.Positions
import Lox.Proofs.Grammar.Resumption
import Lox.Proofs.Grammar.Placement
import Lox.Proofs.Descent.Cursor
import Lox.Proofs.Descent.Rules
import Lox.Proofs.Descent.Expressions
import Lox.Proofs.Descent.Statements
import Lox.Proofs.Descent.Progress
