import HackStack.Assembly.Statement
import Std.Data.TreeMap

/-! Assembling statements in two passes: labels first, then instructions and variables. -/
namespace HackStack.Assembly

/-- An instruction with its symbols resolved. -/
inductive Instruction
  | address (value : Word)
  | compute (destination : Destination) (computation : Field Computation) (jump : Field Jump)
  deriving DecidableEq, Repr, Inhabited

/-- Why a program cannot be loaded, or stops while it runs. -/
inductive Fault
  | addressOverflow
  | outsideProgram (size counter : Nat)
  | notComputation (text : String)
  | notJump (text : String)
  | undefinedSymbol (name : String)
  deriving DecidableEq, Repr, Inhabited

def Fault.message : Fault → String
  | .addressOverflow => "attempt to add with overflow"
  | .outsideProgram size counter =>
    "index out of bounds: the len is " ++ size.repr ++ " but the index is " ++ counter.repr
  | .notComputation text => "not a Hack computation: " ++ text
  | .notJump text => "not a Hack jump: " ++ text
  | .undefinedSymbol name => "undefined symbol " ++ name

abbrev SymbolTable := Std.TreeMap String Word

def predefined : List (String × Word) :=
  [("SP", 0), ("LCL", 1), ("ARG", 2), ("THIS", 3), ("THAT", 4), ("SCREEN", 16384), ("KBD", 24576),
   ("R0", 0), ("R1", 1), ("R2", 2), ("R3", 3), ("R4", 4), ("R5", 5), ("R6", 6), ("R7", 7),
   ("R8", 8), ("R9", 9), ("R10", 10), ("R11", 11), ("R12", 12), ("R13", 13), ("R14", 14),
   ("R15", 15)]

def firstVariable : Nat := 16

/-- The state of the first pass: the symbols so far and the address of the next instruction. -/
structure LabelPass where
  symbols : SymbolTable
  next : Nat

namespace LabelPass

def start : LabelPass := ⟨Std.TreeMap.ofList predefined, 0⟩

/-- A declaration takes the next address, also over an earlier one and over a predefined symbol.
Any other statement takes up an address, and the last of them is `maxConstant - 1`. -/
def visit (pass : LabelPass) : Statement → Except Fault LabelPass
  | .label name => .ok { pass with symbols := pass.symbols.insert name (BitVec.ofNat 16 pass.next) }
  | _ => if pass.next < maxConstant then .ok { pass with next := pass.next + 1 }
    else .error .addressOverflow

end LabelPass

structure CodePass where
  symbols : SymbolTable
  next : Nat := firstVariable
  code : Array Instruction := #[]

namespace CodePass

def push (pass : CodePass) (instruction : Instruction) : CodePass :=
  { pass with code := pass.code.push instruction }

/-- A symbol that is met for the first time becomes a variable at the next free address. -/
def visit (pass : CodePass) : Statement → Except Fault CodePass
  | .label _ => .ok pass
  | .unclosed _ => .ok pass
  | .address (.number value) => .ok (pass.push (.address value))
  | .address (.symbol name) =>
    match pass.symbols[name]? with
    | some value => .ok (pass.push (.address value))
    | none =>
      if pass.next < maxConstant then
        let value := BitVec.ofNat 16 pass.next
        .ok { symbols := pass.symbols.insert name value,
              next := pass.next + 1,
              code := pass.code.push (.address value) }
      else .error .addressOverflow
  | .compute destination computation jump =>
    .ok (pass.push (.compute destination computation jump))

end CodePass

structure Program where
  code : Array Instruction
  symbols : SymbolTable

def assemble (statements : List Statement) : Except Fault Program := do
  let labels ← statements.foldlM LabelPass.visit LabelPass.start
  let pass ← statements.foldlM CodePass.visit { symbols := labels.symbols }
  return ⟨pass.code, pass.symbols⟩

namespace Program

def load (source : String) : Except Fault Program := assemble (Statement.ofSource source)

def symbol (program : Program) (name : String) : Except Fault Word :=
  match program.symbols[name]? with
  | some value => .ok value
  | none => .error (.undefinedSymbol name)

end Program
end HackStack.Assembly
