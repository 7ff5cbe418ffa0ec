import HackStack.Failure
import HackStack.Log

/-! What the command line writes about a run: its log lines and the report of a failure. -/
namespace HackStack.CommandLine

/-- The level without a choice in the environment. -/
def levelOfVerbosity : Nat → Level
  | 0 => .warn
  | 1 => .info
  | 2 => .debug
  | _ => .trace

/-- The environment's choice wins. A text that is no level's name silences the log. -/
def logLevel (choice : Option String) (verbosity : Nat) : Level :=
  match choice with
  | some name => (Level.ofName? name).getD .off
  | none => levelOfVerbosity verbosity

def logLines (level : Level) (events : List Event) : List String :=
  (events.filter fun event => event.level.detail ≤ level.detail).map Event.line

/-- Starts a text with `first` and each of its further lines with `next`. -/
def indent (first next text : String) : String :=
  first ++ ("\n" ++ next).intercalate ((text.toList.splitOn '\n').map String.ofList)

def padded (number : Nat) : String :=
  let digits := number.repr
  String.ofList (List.replicate (5 - digits.length) ' ') ++ digits

/-- The lines below a failure's first text. Several causes are numbered from zero. -/
def causes : List String → String
  | [] => ""
  | [cause] => "\n\nCaused by:\n" ++ indent "    " "    " cause
  | texts => "\n\nCaused by:\n" ++ "\n".intercalate
      (texts.zipIdx.map fun (text, number) => indent (padded number ++ ": ") "       " text)

def report : List String → String
  | [] => ""
  | message :: rest => "Error: " ++ message ++ causes rest ++ "\n"

end HackStack.CommandLine
