import HackStack.Assembly.Computation
import HackStack.Text.Decimal
import HackStack.Text.Line

/-! Statements of assembly, their text, and the reading of a text into statements. -/
namespace HackStack.Assembly

/-- What an address statement names. -/
inductive Operand
  | number (value : Word)
  | symbol (name : String)
  deriving DecidableEq, Repr, Inhabited

/-- A field of a computing statement. A text that no entry of the field's table has is kept: it
is an error only once it is executed. -/
inductive Field (α : Type)
  | known (value : α)
  | unknown (text : String)
  deriving DecidableEq, Repr, Inhabited

namespace Field

def ofText (table : String → Option α) (text : String) : Field α :=
  match table text with
  | some value => .known value
  | none => .unknown text

def text (print : α → String) : Field α → String
  | .known value => print value
  | .unknown text => text

end Field

/-- One line of assembly that holds code. An opening parenthesis without a closing one at the
end of the line declares nothing and is no instruction, yet takes up an address. -/
inductive Statement
  | label (name : String)
  | unclosed (text : String)
  | address (operand : Operand)
  | compute (destination : Destination) (computation : Field Computation) (jump : Field Jump)
  deriving DecidableEq, Repr, Inhabited

namespace Statement

def symbol (name : String) : Statement := .address (.symbol name)

def number (value : Nat) : Statement := .address (.number (BitVec.ofNat 16 value))

def store (destination : Destination) (computation : Computation) : Statement :=
  .compute destination (.known computation) (.known .never)

def jump (computation : Computation) (jump : Jump) : Statement :=
  .compute .none (.known computation) (.known jump)

/-- The statement as one line of assembly. Absent fields are left out with their marks. -/
def text : Statement → String
  | .label name => "(" ++ name ++ ")"
  | .unclosed text => "(" ++ text
  | .address (.number value) => "@" ++ Decimal.signedText value
  | .address (.symbol name) => "@" ++ name
  | .compute destination computation jump =>
    let target := destination.text
    let condition := jump.text Jump.text
    (if target = "" then "" else target ++ "=") ++ computation.text Computation.text ++
      (if condition = "" then "" else ";" ++ condition)

/-- A numeral loads its value; all else after the at sign is a symbol. -/
def readOperand (text : List Char) : Operand :=
  match Decimal.signed? text with
  | some value => .number value
  | none => .symbol (String.ofList text)

/-- The first semicolon starts the jump; before it, the first equals sign ends the destination.
Nothing is trimmed between them. -/
def readComputing (text : List Char) : Statement :=
  let before := text.takeWhile (· ≠ ';')
  let jump := (text.dropWhile (· ≠ ';')).drop 1
  let (destination, computation) :=
    match before.dropWhile (· ≠ '=') with
    | [] => ([], before)
    | _ :: computation => (before.takeWhile (· ≠ '='), computation)
  .compute (Destination.ofText destination)
    (Field.ofText Computation.ofText? (String.ofList computation))
    (Field.ofText Jump.ofText? (String.ofList jump))

/-- Reads the code of one line. Every text is some statement. -/
def ofText : List Char → Statement
  | '(' :: rest =>
    if rest.getLast? = some ')' then .label (String.ofList rest.dropLast)
    else .unclosed (String.ofList rest)
  | '@' :: rest => .address (readOperand rest)
  | code => readComputing code

def ofSource (source : String) : List Statement :=
  (Text.codeLines source.toList).map fun (code, _) => ofText code

end Statement
end HackStack.Assembly
