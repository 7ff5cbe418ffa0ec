import HackStack.Command
import HackStack.Error
import HackStack.Symbol
import HackStack.Text.Decimal
import HackStack.Text.Line

/-! Reading commands from source text, one item for each line that holds code. -/
namespace HackStack.Source

/-- Only spaces and tabs separate words; any other blank inside a line belongs to a word. -/
def isGap (c : Char) : Bool := c == ' ' || c == '\t'

/-- The words of a line, if a word starts it and a word ends it. -/
def words? (line : List Char) : Option (List String) :=
  let pieces := line.splitOnP isGap
  if pieces.head? = some [] ∨ pieces.getLast? = some [] then none
  else some ((pieces.filter (· ≠ [])).map String.ofList)

def readSegment (word : String) : Except Error Segment :=
  match Segment.ofName? word with
  | some segment => .ok segment
  | none => .error (.invalidSegment word)

def readIndex (malformed : Reason → Error) (word : String) : Except Error Word :=
  match Decimal.unsigned? word.toList with
  | some index => .ok index
  | none => .error (malformed (.notInteger word))

def readSymbol (malformed : Reason → Error) (word : String) : Except Error String :=
  if isSymbol word then .ok word else .error (malformed (.notSymbol word))

def miscounted (head : String) (expected : Nat) (arguments : List String) : Reason :=
  if arguments.length < expected then .tooFew head expected arguments.length
  else .trailing (arguments.drop expected)

/-- The command that a first word and the words after it denote. Their number is checked before
any of them is looked at, and they are looked at from left to right. -/
def interpret (malformed : Reason → Error) (head : String) (arguments : List String) :
    Except Error Command :=
  match Command.Keyword.ofText? head, arguments with
  | some .push, [segment, index] =>
    return .push (← readSegment segment) (← readIndex malformed index)
  | some .pop, [segment, index] =>
    return .pop (← readSegment segment) (← readIndex malformed index)
  | some .label, [name] => return .label (← readSymbol malformed name)
  | some .goto, [name] => return .goto (← readSymbol malformed name)
  | some .ifGoto, [name] => return .ifGoto (← readSymbol malformed name)
  | some .function, [name, locals] =>
    return .function (← readSymbol malformed name) (← readIndex malformed locals)
  | some .call, [name, count] =>
    return .call (← readSymbol malformed name) (← readIndex malformed count)
  | some .ret, [] => .ok .ret
  | none, [] => .ok (.arithmetic head)
  | some keyword, _ => .error (malformed (miscounted head keyword.arity arguments))
  | none, _ => .error (malformed (miscounted head 0 arguments))

def readLine (line : Nat) (code : List Char) : Except Error Command :=
  let malformed := Error.malformed line (String.ofList code)
  match words? code with
  | none => .error (malformed .unsplittable)
  | some [] => .error (malformed .noWords)
  | some (head :: arguments) => interpret malformed head arguments

structure Item where
  line : Nat
  outcome : Except Error Command

/-- The items of a source text, in order. A refused line does not end the reading. -/
def items (source : String) : List Item :=
  (Text.codeLines source.toList).map fun (code, line) => ⟨line, readLine line code⟩

def lineCount (source : String) : Nat := (Text.lines source.toList).length

def commands (source : String) : Except Error (List Command) :=
  (items source).mapM (·.outcome)

end HackStack.Source
