import Lox.Command.Arguments

/-!
# The command

Reads files, typed lines and arguments, and writes what the outcome says. Standard output is taken
to work until a write fails; then the outcome is that of a broken one.
-/

namespace Lox.Main

/-- The reason of a failed operation, as the system words it. Its number may come negated. -/
def reason : IO.Error → String
  | .noFileOrDirectory _ code details => worded code details
  | .inappropriateType _ code details => worded code details
  | .permissionDenied _ code details => worded code details
  | .resourceExhausted _ code details => worded code details
  | .resourceVanished code details => worded code details
  | .hardwareFault code details => worded code details
  | error => toString error
where
  worded (code : UInt32) (details : String) : String :=
    let number := if code < 0x80000000 then code else 0 - code
    details.capitalize ++ " (os error " ++ toString number ++ ")"

def readScript (path : String) : IO (Except String String) := do
  try
    return Input.decode (← IO.FS.readBinFile path)
  catch error =>
    return .error (reason error)

def write (outcome : Outcome) : IO UInt32 := do
  (← IO.getStdout).putStr outcome.stdout
  (← IO.getStdout).flush
  (← IO.getStderr).putStr outcome.stderr
  return outcome.status.toUInt32

/-- Writes the outcome on a working standard output, or if that fails on a broken one. -/
def writeOn (outcome : Sink → Outcome) : IO UInt32 := do
  try
    write (outcome .empty)
  catch error =>
    write (outcome (.broken (reason error)))

/-- Writes what a dialogue has to say. -/
def utter (dialogue : Dialogue) : IO Dialogue := do
  let _ ← write (dialogue.stop 0)
  return { dialogue with stdout := "", stderr := "" }

/-- Bytes up to the next line feed, behind the given ones. -/
partial def readLine (stdin : IO.FS.Stream) (earlier : ByteArray) : IO ByteArray := do
  let byte ← stdin.read 1
  let line := earlier ++ byte
  if byte.isEmpty || byte.data == #[10] then return line else readLine stdin line

/-- The next typed line, or nothing at the end of input. -/
def hear : IO (Option (Except String String)) := do
  try
    return (Input.lines (← readLine (← IO.getStdin) .empty)).head?
  catch error =>
    return some (.error (reason error))

/-- Answers typed lines until the input ends. -/
partial def converse (mode : Mode) (dialogue : Dialogue) : IO UInt32 := do
  match dialogue.prompt with
  | .error outcome => write outcome
  | .ok dialogue =>
      let dialogue ← utter dialogue
      match ← hear with
      | none => write dialogue.close
      | some (.error reason) => write (dialogue.giveUp reason)
      | some (.ok line) =>
          match dialogue.answer mode line with
          | .error outcome => write outcome
          | .ok dialogue => converse mode (← utter dialogue)

def work (mode : Mode) : Option String → IO UInt32
  | some path => do
      let content ← readScript path
      writeOn fun stdout => .ofScript stdout mode path content
  | none => do
      try
        converse mode (.start .empty)
      catch error =>
        write (Dialogue.start (.broken (reason error)) |>.run mode [])

end Lox.Main

def main (args : List String) : IO UInt32 :=
  match Lox.Invocation.ofArguments args with
  | .work mode script => Lox.Main.work mode script
  | invocation =>
      Lox.Main.writeOn fun stdout =>
        .ofInvocation { read := fun _ => .error "", stdin := .empty, stdout } invocation
