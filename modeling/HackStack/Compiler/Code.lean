import HackStack.Assembly.Statement
import HackStack.Operation

/-! The code of each command as assembly statements. `SP` points at the first free cell of the
stack; `R13` and `R14` are scratch cells. -/
namespace HackStack.Code
open Assembly

def stackBase : Nat := 256

/-- The function that the first code of a whole program calls. -/
def entryFunction : String := "Sys.init"

/-- Labels of the two loops in which a program ends. -/
def haltLabel : String := "VM$HALT"

def endLabel : String := "VM$END"

def pushData : List Statement :=
  [.symbol "SP", .store .onlyM (.increment .m), .store .onlyA (.decrement .m),
   .store .onlyM (.copy .d)]

def popData : List Statement :=
  [.symbol "SP", .store .both (.decrement .m), .store .onlyD (.copy .m)]

/-- Where the cell of a segment and an index is found. -/
inductive Place
  | based (base : String) (offset : Nat)
  | direct (symbol : String)
  deriving DecidableEq, Repr, Inhabited

def pushConstant (value : Nat) : List Statement :=
  [.number value, .store .onlyD (.copy .a)] ++ pushData

def pushFrom : Place → List Statement
  | .based base offset =>
    [.symbol base, .store .onlyD (.copy .m), .number offset, .store .onlyA (.add .a),
     .store .onlyD (.copy .m)] ++ pushData
  | .direct symbol => [.symbol symbol, .store .onlyD (.copy .m)] ++ pushData

/-- A based cell's address waits in `R13` while the value is popped. -/
def popTo : Place → List Statement
  | .based base offset =>
    [.symbol base, .store .onlyD (.copy .m), .number offset, .store .onlyD (.add .a),
     .symbol "R13", .store .onlyM (.copy .d)] ++ popData ++
    [.symbol "R13", .store .onlyA (.copy .m), .store .onlyM (.copy .d)]
  | .direct symbol => popData ++ [.symbol symbol, .store .onlyM (.copy .d)]

def unary (computation : Computation) : List Statement :=
  [.symbol "SP", .store .onlyA (.decrement .m), .store .onlyM computation]

/-- Replaces the two topmost values; the upper one is in the data register. -/
def binary (computation : Computation) : List Statement :=
  popData ++ [.store .onlyA (.decrement .a), .store .onlyM computation]

/-- Replaces the two topmost values by -1 if the jump's condition holds of their difference, and
by 0 otherwise. The `count`-th comparison of a run has labels of its own. -/
def compare (count : Nat) (jump : Jump) : List Statement :=
  let yes := "TRUE_" ++ count.repr
  let done := "END_" ++ count.repr
  popData ++
  [.store .onlyA (.decrement .a), .store .onlyD (.subtractFrom .m), .symbol yes,
   .jump (.copy .d) jump, .symbol "SP", .store .onlyA (.decrement .m), .store .onlyM .zero,
   .symbol done, .jump .zero .always, .label yes, .symbol "SP", .store .onlyA (.decrement .m),
   .store .onlyM .minusOne, .label done]

def operation (count : Nat) : Operation → List Statement
  | .not => unary (.complement .m)
  | .neg => unary (.negate .m)
  | .add => binary (.add .m)
  | .sub => binary (.subtractFrom .m)
  | .and => binary (.conjoin .m)
  | .or => binary (.disjoin .m)
  | .eq => compare count .zero
  | .gt => compare count .positive
  | .lt => compare count .negative

def goto (symbol : String) : List Statement := [.symbol symbol, .jump .zero .always]

def ifGoto (symbol : String) : List Statement :=
  popData ++ [.symbol symbol, .jump (.copy .d) .notZero]

def pushZero : List Statement :=
  [.symbol "SP", .store .onlyM (.increment .m), .store .onlyA (.decrement .m),
   .store .onlyM .zero]

/-- Declares a function and pushes its locals, all zero. -/
def function (name : String) (locals : Nat) : List Statement :=
  .label name :: (List.replicate locals pushZero).flatten

/-- Pushes a return address and the caller's four base pointers, sets `ARG` below them and the
arguments and `LCL` above them, and jumps. -/
def call (returnSymbol name : String) (arguments : Nat) : List Statement :=
  [.symbol returnSymbol, .store .onlyD (.copy .a)] ++ pushData ++
  ["LCL", "ARG", "THIS", "THAT"].flatMap (fun base =>
    [.symbol base, .store .onlyD (.copy .m)] ++ pushData) ++
  [.symbol "SP", .store .onlyD (.copy .m), .number (arguments + 5), .store .onlyD (.subtract .a),
   .symbol "ARG", .store .onlyM (.copy .d), .symbol "SP", .store .onlyD (.copy .m),
   .symbol "LCL", .store .onlyM (.copy .d), .symbol name, .jump .zero .always,
   .label returnSymbol]

/-- Moves `R13` one cell down and loads a base pointer from there. -/
def restore (base : String) : List Statement :=
  [.symbol "R13", .store .both (.decrement .m), .store .onlyD (.copy .m), .symbol base,
   .store .onlyM (.copy .d)]

/-- Hands the top of the stack to the caller and restores its base pointers. The return address
is read into `R14` first, since without arguments the result takes its cell. -/
def ret : List Statement :=
  [.symbol "LCL", .store .onlyD (.copy .m), .symbol "R13", .store .onlyM (.copy .d), .number 5,
   .store .onlyA (.subtract .a), .store .onlyD (.copy .m), .symbol "R14",
   .store .onlyM (.copy .d)] ++ popData ++
  [.symbol "ARG", .store .onlyA (.copy .m), .store .onlyM (.copy .d), .symbol "ARG",
   .store .onlyD (.increment .m), .symbol "SP", .store .onlyM (.copy .d)] ++
  ["THAT", "THIS", "ARG", "LCL"].flatMap restore ++
  [.symbol "R14", .store .onlyA (.copy .m), .jump .zero .always]

def setStack : List Statement :=
  [.number stackBase, .store .onlyD (.copy .a), .symbol "SP", .store .onlyM (.copy .d)]

def loop (label : String) : List Statement := .label label :: goto label

end HackStack.Code
