import Lox.Command.Input
import Lox.Session
import Lox.Syntax.Dump

/-!
# Outcome of the command

The command works on one script, or answers typed lines one by one in a single session. Failures go
to standard error and decide the status of a script; a line that fails is reported and forgotten.
-/

namespace Lox

inductive Mode where
  | run
  /-- List the tokens. -/
  | tokens
  /-- Dump the syntax tree. -/
  | tree

inductive CommandFailure where
  | program (failure : Failure)
  | output (reason : String)

namespace CommandFailure

def text : CommandFailure → String
  | program failure => failure.text
  | output reason => "Failed to write output: " ++ reason

def status : CommandFailure → Nat
  | program failure => if failure.isStatic then 65 else 70
  | output _ => 74

end CommandFailure

/-- Writes lines up to the first that is refused, and tells why that one is. -/
def Sink.writeAll (sink : Sink) : List String → Sink × Option String
  | [] => (sink, none)
  | line :: rest =>
      match sink.write line with
      | .ok sink => sink.writeAll rest
      | .error reason => (sink, some reason)

namespace Session

/-- Writes lines, and fails with the given failure when all of them are written. -/
def display (session : Session) (lines : List String) (failure : Option Failure) :
    Session × Option CommandFailure :=
  match session.sink.writeAll lines with
  | (sink, none) => ({ session with sink }, failure.map .program)
  | (sink, some reason) => ({ session with sink }, some (.output reason))

def listTokens (session : Session) (source : String) : Session × Option CommandFailure :=
  let scan := Scan.ofSource source
  let failure := if scan.errors.isEmpty then none else some (.scan scan.errors)
  session.display (scan.tokens.map Token.listing) failure

def dumpTree (session : Session) (source : String) : Session × Option CommandFailure :=
  let scan := Scan.ofSource source
  if scan.errors.isEmpty then
    let parsed := Parsed.ofTokens scan.tokens
    let failure := if parsed.errors.isEmpty then none else some (.parse parsed.errors)
    session.display (parsed.program.map Stmt.dump) failure
  else (session, some (.program (.scan scan.errors)))

/-- Does with a source what the mode asks for. -/
def treat (session : Session) (mode : Mode) (source : String) : Session × Option CommandFailure :=
  match mode with
  | .run =>
      let (session, failure) := session.run source
      (session, failure.map .program)
  | .tokens => session.listTokens source
  | .tree => session.dumpTree source

end Session

structure Outcome where
  status : Nat
  stdout : String
  stderr : String

/-- Each line with its end. -/
def Sink.text (sink : Sink) : String := String.join (sink.written.map (· ++ "\n"))

namespace Outcome

/-- Text for standard output, which a broken one drops. -/
def ofText (stdout : Sink) (text : String) : Outcome :=
  match stdout.refusal? with
  | none => { status := 0, stdout := text, stderr := "" }
  | some _ => { status := 0, stdout := "", stderr := "" }

def ofScript (stdout : Sink) (mode : Mode) (path : String) (content : Except String String) :
    Outcome :=
  match content with
  | .error reason =>
      { status := 74, stdout := "", stderr := "Failed to read '" ++ path ++ "': " ++ reason ++ "\n" }
  | .ok source =>
      let (session, failure) := Session.treat { scopes := .empty, sink := stdout } mode source
      { status := (failure.map CommandFailure.status).getD 0
        stdout := session.sink.text
        stderr := (failure.map fun failure => failure.text ++ "\n").getD "" }

end Outcome

/-! ## Answering typed lines -/

def promptText : String := "> "

/-- A dialogue so far. -/
structure Dialogue where
  session : Session
  stdout : String
  stderr : String

namespace Dialogue

def start (stdout : Sink) : Dialogue :=
  { session := { scopes := .empty, sink := stdout }, stdout := "", stderr := "" }

def stop (d : Dialogue) (status : Nat) : Outcome :=
  { status, stdout := d.stdout, stderr := d.stderr }

def complain (d : Dialogue) (message : String) : Dialogue :=
  { d with stderr := d.stderr ++ message ++ "\n" }

def prompt (d : Dialogue) : Except Outcome Dialogue :=
  match d.session.sink.refusal? with
  | none => .ok { d with stdout := d.stdout ++ promptText }
  | some reason => .error ((d.complain (CommandFailure.output reason).text).stop 74)

def answer (d : Dialogue) (mode : Mode) (line : String) : Except Outcome Dialogue :=
  let (session, failure) := d.session.treat mode line
  let d := { d with session := session.clearOutput, stdout := d.stdout ++ session.sink.text }
  match failure with
  | none => .ok d
  | some (.program failure) => .ok (d.complain failure.text)
  | some (.output reason) => .error ((d.complain (CommandFailure.output reason).text).stop 74)

/-- The end of input also ends the line of the last prompt. -/
def close (d : Dialogue) : Outcome := { d with stdout := d.stdout ++ "\n" }.stop 0

/-- Stops at a line that is no text or cannot be read. -/
def giveUp (d : Dialogue) (reason : String) : Outcome :=
  (d.complain ("Failed to read input: " ++ reason)).stop 74

/-- Answers lines up to the end of input, with a prompt in front of each. -/
def run (d : Dialogue) (mode : Mode) (lines : List (Except String String)) : Outcome :=
  match d.prompt with
  | .error outcome => outcome
  | .ok d =>
      match lines with
      | [] => d.close
      | .error reason :: _ => d.giveUp reason
      | .ok line :: rest =>
          match d.answer mode line with
          | .error outcome => outcome
          | .ok d => d.run mode rest

end Dialogue

/-! ## The whole command -/

inductive Invocation where
  | misuse
  | version
  | help
  /-- Work on a script, or without one on lines that are typed in. -/
  | work (mode : Mode) (script : Option String)

def versionText : String := "lox-lang 0.1.0\n"

def usageText : String :=
  "Usage: lox [--tokens | --ast] [SCRIPT]\n\n" ++
  "Runs a script, or without one the lines that are typed in.\n\n" ++
  "      --tokens   Print the scanned tokens instead of running the program\n" ++
  "      --ast      Print the parsed syntax tree instead of running the program\n" ++
  "  -h, --help     Print help\n" ++
  "  -V, --version  Print version\n"

/-- What the command is run with. Standard output keeps its lines, is broken or breaks. -/
structure Surroundings where
  read : String → Except String ByteArray
  stdin : ByteArray
  stdout : Sink

def Outcome.ofInvocation (around : Surroundings) : Invocation → Outcome
  | .misuse => { status := 2, stdout := "", stderr := usageText }
  | .version => .ofText around.stdout versionText
  | .help => .ofText around.stdout usageText
  | .work mode (some path) => .ofScript around.stdout mode path (around.read path >>= Input.decode)
  | .work mode none => (Dialogue.start around.stdout).run mode (Input.lines around.stdin)

end Lox
