import HackStack.Job

/-! The arguments of the command line. They are taken from left to right, and the first that is
wrong or asks for help or the version decides. A value is looked at only when what follows it is
taken, or at the end. -/
namespace HackStack.CommandLine

/-- Why there is nothing to run. -/
inductive Exit
  | help
  | version
  | usage
  deriving DecidableEq, Repr, Inhabited

/-- A value that has not been looked at yet. -/
inductive Pending
  | input (value : String)
  | output (value : String)
  /-- The output option, whose value has not come yet. -/
  | outputName
  deriving DecidableEq, Repr, Inhabited

structure Arguments where
  input : Option String := none
  output : Option String := none
  bootstrap : Bool := false
  noBootstrap : Bool := false
  verbosity : Nat := 0
  pending : Option Pending := none
  /-- An input has come, whether it has been looked at or not. -/
  inputSeen : Bool := false
  /-- All further arguments are inputs. -/
  onlyInputs : Bool := false
  deriving DecidableEq, Repr, Inhabited

structure Environment where
  output : Option String := none
  logLevel : Option String := none
  deriving DecidableEq, Repr, Inhabited

namespace Arguments

/-- Takes a value for the output. It must not be empty, and there may be only one. -/
def setOutput (arguments : Arguments) (value : String) : Except Exit Arguments :=
  if value = "" ∨ arguments.output.isSome then .error .usage
  else .ok { arguments with output := some value }

/-- Looks at the value that is pending. -/
def settle (arguments : Arguments) : Except Exit Arguments :=
  let settled := { arguments with pending := none }
  match arguments.pending with
  | none => .ok settled
  | some .outputName => .error .usage
  | some (.output value) => settled.setOutput value
  | some (.input value) =>
    if value = "" then .error .usage else .ok { settled with input := some value }

inductive Flag
  | bootstrap | noBootstrap | verbose | help | version
  deriving DecidableEq, Repr, Inhabited

def raise (arguments : Arguments) (flag : Flag) : Except Exit Arguments := do
  let arguments ← arguments.settle
  match flag with
  | .help => throw .help
  | .version => throw .version
  | .verbose => return { arguments with verbosity := arguments.verbosity + 1 }
  | .bootstrap =>
    if arguments.bootstrap then throw .usage else return { arguments with bootstrap := true }
  | .noBootstrap =>
    if arguments.noBootstrap then throw .usage else return { arguments with noBootstrap := true }

def takeOutput (arguments : Arguments) (value : Option String) : Except Exit Arguments := do
  let arguments ← arguments.settle
  match value with
  | some value => arguments.setOutput value
  | none => return { arguments with pending := some .outputName }

def longFlag? : String → Option Flag
  | "bootstrap" => some .bootstrap
  | "no-bootstrap" => some .noBootstrap
  | "verbose" => some .verbose
  | "help" => some .help
  | "version" => some .version
  | _ => none

def takeLong (arguments : Arguments) (text : List Char) : Except Exit Arguments :=
  let name := String.ofList (text.takeWhile (· ≠ '='))
  let value := match text.dropWhile (· ≠ '=') with
    | [] => none
    | _ :: rest => some (String.ofList rest)
  if name = "output" then arguments.takeOutput value
  else match longFlag? name, value with
    | some flag, none => arguments.raise flag
    | _, _ => .error .usage

def shortFlag? : Char → Option Flag
  | 'v' => some .verbose
  | 'h' => some .help
  | 'V' => some .version
  | _ => none

/-- One-letter options after one hyphen. The output option takes the rest as its value, less an
equals sign at its start. -/
def takeShort (arguments : Arguments) : List Char → Except Exit Arguments
  | [] => .ok arguments
  | 'o' :: [] => arguments.takeOutput none
  | 'o' :: '=' :: value => arguments.takeOutput (some (String.ofList value))
  | 'o' :: value => arguments.takeOutput (some (String.ofList value))
  | letter :: rest =>
    match shortFlag? letter with
    | some flag => do takeShort (← arguments.raise flag) rest
    | none => .error .usage

/-- There is one input. -/
def takeInput (arguments : Arguments) (value : String) : Except Exit Arguments := do
  if arguments.inputSeen then throw .usage
  return { ← arguments.settle with pending := some (.input value), inputSeen := true }

/-- Takes one argument. A lone hyphen is a value. -/
def take (arguments : Arguments) (argument : String) : Except Exit Arguments :=
  if arguments.onlyInputs then arguments.takeInput argument
  else match argument.toList with
    | ['-', '-'] => .ok { arguments with onlyInputs := true }
    | '-' :: '-' :: text => arguments.takeLong text
    | '-' :: letter :: rest => arguments.takeShort (letter :: rest)
    | _ =>
      if arguments.pending = some .outputName then
        .ok { arguments with pending := some (.output argument) }
      else arguments.takeInput argument

def read (arguments : List String) : Except Exit Arguments := do
  (← arguments.foldlM take {}).settle

/-- The options that arguments ask for. The environment's output counts if no argument names
one. -/
def options (arguments : Arguments) (environment : Environment) : Except Exit Options :=
  match arguments.input, arguments.output.or environment.output with
  | none, _ => .error .usage
  | some _, some "" => .error .usage
  | some input, output =>
    let options : Options := { input := Text.bytes input, output := output.map Text.bytes }
    match arguments.bootstrap, arguments.noBootstrap with
    | true, true => .error .usage
    | true, false => .ok { options with bootstrap := some true }
    | false, true => .ok { options with bootstrap := some false }
    | false, false => .ok options

end Arguments
end HackStack.CommandLine
