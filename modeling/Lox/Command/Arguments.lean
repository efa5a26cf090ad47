import Lox.Command.Outcome

/-!
# Arguments of the command

Arguments are read from left to right. The first fault ends the reading, and so does a request for
the version or for help. What the command does with an invocation does not depend on this reading.
-/

namespace Lox

inductive Flag where
  | tokens
  | tree
  | version
  | help

namespace Flag

def ofLong? (arg : String) : Option Flag :=
  match arg with
  | "--tokens" => some tokens
  | "--ast" => some tree
  | "--version" => some version
  | "--help" => some help
  | _ => none

/-- The flags of one letter end the reading, so only the first letter behind a dash counts. -/
def ofShort? : List Char → Option Flag
  | 'V' :: _ => some version
  | 'h' :: _ => some help
  | _ => none

end Flag

inductive Argument where
  | flag (flag : Flag)
  | unknownFlag
  /-- All that follows is no flag. -/
  | separator
  | plain (text : String)

/-- A dash starts a flag, but stands for itself when it is alone. -/
def Argument.ofText (arg : String) : Argument :=
  match arg.toList with
  | ['-', '-'] => separator
  | '-' :: '-' :: _ => (Flag.ofLong? arg).elim unknownFlag flag
  | '-' :: c :: rest => (Flag.ofShort? (c :: rest)).elim unknownFlag flag
  | _ => plain arg

structure Arguments where
  tokens : Bool
  tree : Bool
  script : Option String

namespace Arguments

def none : Arguments := { tokens := false, tree := false, script := .none }

/-- A script needs a name. -/
def isNamed (args : Arguments) : Bool := args.script != some ""

def withScript? (args : Arguments) (script : String) : Option Arguments :=
  if args.script.isNone then some { args with script := some script } else .none

def conclude (args : Arguments) : Invocation :=
  if !args.isNamed || (args.tokens && args.tree) then .misuse
  else
    let mode := if args.tokens then .tokens else if args.tree then .tree else .run
    .work mode args.script

def readPlain (args : Arguments) : List String → Invocation
  | [] => args.conclude
  | arg :: rest =>
      match args.withScript? arg with
      | some args => args.readPlain rest
      | .none => .misuse

def read (args : Arguments) : List String → Invocation
  | [] => args.conclude
  | arg :: rest =>
      match Argument.ofText arg with
      | .separator => args.readPlain rest
      | .plain text =>
          match args.withScript? text with
          | some args => args.read rest
          | .none => .misuse
      | .flag .tokens => if args.tokens then .misuse else { args with tokens := true }.read rest
      | .flag .tree => if args.tree then .misuse else { args with tree := true }.read rest
      | .flag .version => if args.isNamed then .version else .misuse
      | .flag .help => if args.isNamed then .help else .misuse
      | .unknownFlag => .misuse

end Arguments

def Invocation.ofArguments (args : List String) : Invocation := Arguments.none.read args

end Lox
