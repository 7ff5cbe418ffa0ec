import HackStack.Command
import HackStack.Compiler.Code
import HackStack.Compiler.Scope
import HackStack.Error
import HackStack.Symbol

/-! The code generator: which block of assembly a command gives in which state. -/
namespace HackStack
open Assembly

structure Block where
  heading : String
  code : List Statement
  deriving DecidableEq, Repr, Inhabited

namespace Block

/-- The lines of a block: the heading as a comment, then one line for each statement. -/
def lines (block : Block) : List String :=
  ("// " ++ block.heading) :: block.code.map Statement.text

def chunks (block : Block) : List String :=
  ["// ", block.heading, "\n"] ++ block.code.flatMap fun statement => [statement.text, "\n"]

theorem join_chunks (block : Block) :
    String.join block.chunks = String.join (block.lines.map (· ++ "\n")) := by
  have code : ∀ statements : List Statement,
      String.join (statements.flatMap fun statement => [statement.text, "\n"]) =
        String.join ((statements.map Statement.text).map (· ++ "\n")) := by
    intro statements
    induction statements with
    | nil => rfl
    | cons statement rest ih => simp [String.join_cons, ih, String.append_assoc]
  simp [chunks, lines, code, String.join_cons, String.append_assoc]

end Block

/-- What the code of a command depends on: the current module and scope, how many comparisons
and calls a run has had, and whether it has begun to write. -/
structure Generator where
  module : String := "bootstrap"
  scope : Scope := .module "bootstrap"
  comparisons : Nat := 0
  calls : Nat := 0
  started : Bool := false
  deriving DecidableEq, Repr, Inhabited

namespace Generator

/-- The index itself if it is at most `max`. -/
def checked (segment : Segment) (index : Word) (max : Nat) : Except Error Nat :=
  if index.toNat ≤ max then .ok index.toNat else .error (.indexOutOfRange segment index max)

def staticSymbol (generator : Generator) (index : Word) : String :=
  generator.module ++ "." ++ index.toNat.repr

/-- The label behind a call, at which the callee returns. -/
def returnSymbol (generator : Generator) : String :=
  generator.module ++ "$ret." ++ generator.calls.repr

/-- The cell that a segment and an index name. A constant has none; the temporaries are `R5` to
`R12`. -/
def place (generator : Generator) (segment : Segment) (index : Word) :
    Except Error Code.Place :=
  match segment with
  | .constant => .error (.invalidSegment segment.name)
  | .locals => return .based "LCL" (← checked segment index maxConstant)
  | .arguments => return .based "ARG" (← checked segment index maxConstant)
  | .this => return .based "THIS" (← checked segment index maxConstant)
  | .that => return .based "THAT" (← checked segment index maxConstant)
  | .static => return .direct (generator.staticSymbol index)
  | .temp => return .direct ("R" ++ (5 + (← checked segment index 7)).repr)
  | .pointer => return .direct (if (← checked segment index 1) = 0 then "THIS" else "THAT")

def push (generator : Generator) (segment : Segment) (index : Word) :
    Except Error (List Statement) :=
  match segment with
  | .constant => return Code.pushConstant (← checked segment index maxConstant)
  | _ => return Code.pushFrom (← generator.place segment index)

def pop (generator : Generator) (segment : Segment) (index : Word) :
    Except Error (List Statement) :=
  return Code.popTo (← generator.place segment index)

/-- The code of a command. A call's arguments and the five cells above them have to be reached
by one constant. -/
def code (generator : Generator) : Command → Except Error (List Statement)
  | .arithmetic mnemonic =>
    match Operation.ofMnemonic? mnemonic with
    | some operation => .ok (Code.operation generator.comparisons operation)
    | none => .error (.unsupportedOperation mnemonic)
  | .push segment index => generator.push segment index
  | .pop segment index => generator.pop segment index
  | .label name => .ok [.label (generator.scope.resolve name)]
  | .goto name => .ok (Code.goto (generator.scope.resolve name))
  | .ifGoto name => .ok (Code.ifGoto (generator.scope.resolve name))
  | .function name locals => .ok (Code.function name locals.toNat)
  | .call name arguments =>
    return Code.call generator.returnSymbol name
      (← checked .arguments arguments (maxConstant - 5))
  | .ret => .ok Code.ret

/-- The state after the code of a command has been handed out. -/
def advance (generator : Generator) (command : Command) : Generator :=
  let generator := { generator with started := true }
  match command with
  | .arithmetic mnemonic =>
    match Operation.ofMnemonic? mnemonic with
    | some .eq | some .gt | some .lt =>
      { generator with comparisons := generator.comparisons + 1 }
    | _ => generator
  | .function name _ => { generator with scope := .function name }
  | .call .. => { generator with calls := generator.calls + 1 }
  | _ => generator

/-- The block of a command and the state after it. A refused command has neither. -/
def generate (generator : Generator) (command : Command) : Except Error (Generator × Block) :=
  return (generator.advance command, ⟨command.text, ← generator.code command⟩)

/-- Starts a module. Statics and labels outside functions carry its name, which therefore has to
be a symbol. -/
def enterModule (generator : Generator) (name : String) : Except Error Generator :=
  if isSymbol name then .ok { generator with module := name, scope := .module name }
  else .error (.invalidModuleName name)

def setStack (generator : Generator) : Generator × Block :=
  ({ generator with started := true }, ⟨"bootstrap", Code.setStack⟩)

/-- The second block of such a program: the call of the entry function, then a halt loop. -/
def callEntry (generator : Generator) : Generator × Block :=
  let command := Command.call Code.entryFunction 0
  (generator.advance command,
    ⟨command.text,
      Code.call generator.returnSymbol Code.entryFunction 0 ++ Code.loop Code.haltLabel⟩)

def close (generator : Generator) : Generator × Block :=
  ({ generator with started := true }, ⟨"end", Code.loop Code.endLabel⟩)

end Generator
end HackStack
