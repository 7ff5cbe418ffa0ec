import HackStack.Assembly.Program
import HackStack.Machine.Memory

/-! The machine that executes a loaded program. -/
namespace HackStack.Assembly

/-- The value that a computation has for the registers `a` and `d` and the cell `m`. All
arithmetic is modulo `2 ^ 16`. -/
def Computation.value (a d m : Word) : Computation → Word
  | .zero => 0
  | .one => 1
  | .minusOne => -1
  | .copy register => pick register
  | .complement register => ~~~ pick register
  | .negate register => - pick register
  | .increment register => pick register + 1
  | .decrement register => pick register - 1
  | .add side => d + other side
  | .subtract side => d - other side
  | .subtractFrom side => other side - d
  | .conjoin side => d &&& other side
  | .disjoin side => d ||| other side
where
  pick : Register → Word
    | .a => a
    | .d => d
    | .m => m
  other : Side → Word
    | .a => a
    | .m => m

/-- Whether a result, as a signed number, fulfils a jump's condition. -/
def Jump.taken (result : Word) : Jump → Bool
  | .never => false
  | .positive => 0 < result.toInt
  | .zero => result.toInt = 0
  | .notNegative => 0 ≤ result.toInt
  | .negative => result.toInt < 0
  | .notZero => result.toInt ≠ 0
  | .notPositive => result.toInt ≤ 0
  | .always => true

end HackStack.Assembly

namespace HackStack
open Assembly

/-- Counters have 64 bits: they are below this number. -/
def counterLimit : Nat := UInt64.size

structure Machine where
  memory : Memory := .zero
  counter : Nat := 0
  a : Word := 0
  d : Word := 0

namespace Machine

structure Stop where
  fault : Fault
  machine : Machine

/-- Stores a result; the memory cell is the one that `a` addresses before the store. -/
def store : Machine → Destination → Word → Machine
  | ⟨memory, counter, a, d⟩, destination, result =>
    { memory := if destination.m then memory.write a result else memory
      counter
      a := if destination.a then result else a
      d := if destination.d then result else d }

/-- Executes the instruction at the counter. An unknown computation changes nothing; an unknown
jump leaves the counter where it is, after the store. -/
def step (code : Array Instruction) (machine : Machine) : Except Stop Machine :=
  match code[machine.counter]? with
  | none => .error ⟨.outsideProgram code.size machine.counter, machine⟩
  | some (.address value) => .ok { machine with a := value, counter := machine.counter + 1 }
  | some (.compute destination computation jump) =>
    match computation with
    | .unknown text => .error ⟨.notComputation text, machine⟩
    | .known computation =>
      let next := machine.counter + 1
      let target := machine.a.toNat
      let result := computation.value machine.a machine.d (machine.memory.read machine.a)
      let stored := machine.store destination result
      match jump with
      | .unknown text => .error ⟨.notJump text, stored⟩
      | .known jump => .ok { stored with counter := if jump.taken result then target else next }

/-- The counter is on an address instruction that loads the counter's own value, and an
unconditional jump that computes zero follows. -/
def halted (code : Array Instruction) (machine : Machine) : Bool :=
  (match code[machine.counter]? with
    | some (.address value) => value.toInt = machine.counter
    | _ => false) &&
  (match code[machine.counter + 1]? with
    | some (.compute _ (.known .zero) (.known .always)) => true
    | _ => false)

/-- Asks whether the machine has halted. The answer depends on the instruction after the counter,
so there is none at the last value that a counter has. -/
def checkHalted (code : Array Instruction) (machine : Machine) : Except Fault Bool :=
  if machine.counter + 1 < counterLimit then .ok (halted code machine)
  else .error .addressOverflow

theorem checkHalted_of_lt {code : Array Instruction} {machine : Machine}
    (bound : machine.counter + 1 < counterLimit) :
    checkHalted code machine = .ok (halted code machine) := if_pos bound

/-- Executes up to `budget` instructions. It stops early on a halt loop and outside the
program. -/
def run (code : Array Instruction) : Nat → Machine → Except Stop Machine
  | 0, machine => .ok machine
  | budget + 1, machine =>
    match checkHalted code machine with
    | .error fault => .error ⟨fault, machine⟩
    | .ok stopped =>
      if stopped || code.size ≤ machine.counter then .ok machine
      else match step code machine with
        | .ok next => run code budget next
        | .error stop => .error stop

def steps (code : Array Instruction) : Nat → Machine → Except Stop Machine
  | 0, machine => .ok machine
  | count + 1, machine =>
    match step code machine with
    | .ok next => steps code count next
    | .error stop => .error stop

def poke (machine : Machine) (cells : List (Word × Word)) : Machine :=
  { machine with
    memory := cells.foldl (fun memory (address, value) => memory.write address value)
      machine.memory }

end Machine
end HackStack
