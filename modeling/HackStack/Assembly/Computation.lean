import HackStack.Word

/-! The fields of a computing instruction: destination, computation and jump. -/
namespace HackStack.Assembly

/-- A readable register; `m` is the memory cell at the address in `a`. -/
inductive Register
  | a | d | m
  deriving DecidableEq, Repr, Inhabited

/-- The second operand of a computation on `d`. -/
inductive Side
  | a | m
  deriving DecidableEq, Repr, Inhabited

inductive Computation
  | zero
  | one
  | minusOne
  | copy (register : Register)
  | complement (register : Register)
  | negate (register : Register)
  | increment (register : Register)
  | decrement (register : Register)
  | add (side : Side)
  | subtract (side : Side)
  | subtractFrom (side : Side)
  | conjoin (side : Side)
  | disjoin (side : Side)
  deriving DecidableEq, Repr, Inhabited

namespace Computation

def all : List Computation :=
  [.zero, .one, .minusOne, .copy .d, .copy .a, .copy .m, .complement .d, .complement .a,
   .complement .m, .negate .d, .negate .a, .negate .m, .increment .d, .increment .a,
   .increment .m, .decrement .d, .decrement .a, .decrement .m, .add .a, .add .m, .subtract .a,
   .subtract .m, .subtractFrom .a, .subtractFrom .m, .conjoin .a, .conjoin .m, .disjoin .a,
   .disjoin .m]

def text : Computation → String
  | .zero => "0"
  | .one => "1"
  | .minusOne => "-1"
  | .copy .a => "A"
  | .copy .d => "D"
  | .copy .m => "M"
  | .complement .a => "!A"
  | .complement .d => "!D"
  | .complement .m => "!M"
  | .negate .a => "-A"
  | .negate .d => "-D"
  | .negate .m => "-M"
  | .increment .a => "A+1"
  | .increment .d => "D+1"
  | .increment .m => "M+1"
  | .decrement .a => "A-1"
  | .decrement .d => "D-1"
  | .decrement .m => "M-1"
  | .add .a => "D+A"
  | .add .m => "D+M"
  | .subtract .a => "D-A"
  | .subtract .m => "D-M"
  | .subtractFrom .a => "A-D"
  | .subtractFrom .m => "M-D"
  | .conjoin .a => "D&A"
  | .conjoin .m => "D&M"
  | .disjoin .a => "D|A"
  | .disjoin .m => "D|M"

def ofText? (text : String) : Option Computation :=
  all.find? fun computation => computation.text = text

@[simp] theorem ofText?_text (computation : Computation) :
    ofText? computation.text = some computation := by
  rcases computation with _ | _ | _ | r | r | r | r | r | s | s | s | s | s
  all_goals try cases r
  all_goals try cases s
  all_goals decide

end Computation

/-- When control moves to the address in `a`. -/
inductive Jump
  | never | positive | zero | notNegative | negative | notZero | notPositive | always
  deriving DecidableEq, Repr, Inhabited

namespace Jump

def all : List Jump :=
  [.never, .positive, .zero, .notNegative, .negative, .notZero, .notPositive, .always]

def text : Jump → String
  | .never => ""
  | .positive => "JGT"
  | .zero => "JEQ"
  | .notNegative => "JGE"
  | .negative => "JLT"
  | .notZero => "JNE"
  | .notPositive => "JLE"
  | .always => "JMP"

def ofText? (text : String) : Option Jump := all.find? fun jump => jump.text = text

@[simp] theorem ofText?_text (jump : Jump) : ofText? jump.text = some jump := by
  cases jump <;> decide

end Jump

/-- The set of registers that take the result. -/
structure Destination where
  a : Bool := false
  d : Bool := false
  m : Bool := false
  deriving DecidableEq, Repr, Inhabited

namespace Destination

def none : Destination := {}

def onlyA : Destination := { a := true }

def onlyD : Destination := { d := true }

def onlyM : Destination := { m := true }

def both : Destination := { a := true, m := true }

/-- A letter anywhere in the text names its register; other characters name nothing. -/
def ofText (text : List Char) : Destination :=
  { a := text.contains 'A', d := text.contains 'D', m := text.contains 'M' }

/-- The letters of the registers, in the order `A`, `M`, `D`. -/
def text (destination : Destination) : String :=
  (if destination.a then "A" else "") ++ (if destination.m then "M" else "") ++
    (if destination.d then "D" else "")

@[simp] theorem ofText_text (destination : Destination) :
    ofText destination.text.toList = destination := by
  obtain ⟨a, d, m⟩ := destination
  cases a <;> cases d <;> cases m <;> decide

end Destination
end HackStack.Assembly
