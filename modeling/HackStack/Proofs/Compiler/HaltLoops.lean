import HackStack.Proofs.Compiler.Legality
import HackStack.Proofs.Machine.Halting

/-! Halts of programs that were compiled. A statement of the generator stores or jumps, but never
both, so the loops of an output leave memory alone: once a run has stopped on one of them, neither
a larger budget nor further steps change anything. -/
namespace HackStack
open Assembly Machine

def Assembly.Statement.storesOrJumps : Statement → Bool
  | .compute _ _ (.known .never) => true
  | .compute destination _ _ => destination = .none
  | _ => true

theorem Generator.storesOrJumps_code {generator : Generator} {command : Command}
    {code : List Statement} (generated : generator.code command = .ok code) :
    code.all Statement.storesOrJumps = true := by
  cases command with
  | arithmetic mnemonic =>
    simp only [Generator.code] at generated
    split at generated
    · rename_i operation _
      cases generated
      cases operation <;> rfl
    · cases generated
  | push segment index =>
    cases segment with
    | constant =>
      obtain ⟨value, -, result⟩ := bind_ok generated
      cases result
      rfl
    | locals | static | arguments | this | that | pointer | temp =>
      obtain ⟨place, -, result⟩ := bind_ok generated
      cases result
      cases place <;> rfl
  | pop segment index =>
    obtain ⟨place, -, result⟩ := bind_ok generated
    cases result
    cases place <;> rfl
  | label | goto | ifGoto | ret =>
    cases generated
    rfl
  | function name locals =>
    cases generated
    have zero : Code.pushZero.all Statement.storesOrJumps = true := rfl
    rw [Code.function, List.all_cons, List.all_flatten, List.all_replicate, zero, ite_self]
    rfl
  | call name arguments =>
    obtain ⟨count, -, result⟩ := bind_ok generated
    cases result
    rfl

theorem Site.storesOrJumps_code (site : Site) : site.code.all Statement.storesOrJumps = true := by
  cases site with
  | setStack | loop => rfl
  | compiled generator command =>
    simp only [Site.code]
    split
    · exact Generator.storesOrJumps_code ‹_›
    · rfl

theorem Produces.quiet {bootstrap : Bool} {modules : List Module} {text : String}
    (produced : Produces bootstrap modules text) {program : Program}
    (loaded : Program.load text = .ok program) {first : Nat} {destination : Destination}
    (loop : LoopAt program.code first destination) : destination.m = false := by
  obtain ⟨-, -, -, code⟩ := assemble_ok loaded
  rw [produced.listed.ofSource] at code
  have among := Array.mem_of_getElem? loop.jump
  rw [← Array.mem_toList_iff, code] at among
  obtain ⟨statement, inside, made⟩ := List.mem_filterMap.mp among
  obtain ⟨site, -, member⟩ := List.mem_flatMap.mp inside
  have plain := List.all_eq_true.mp site.storesOrJumps_code statement member
  cases statement with
  | label | unclosed | address => cases made
  | compute target computation jump =>
    cases made
    exact congrArg Destination.m (of_decide_eq_true plain)

/-- Running goes on where it stopped, and a halt lasts. Two runs one after the other are one run
with both budgets, faults included. A machine that has halted is back at the same address after two
steps, halted again, and unless the jump also stores to memory, memory is as it was. So once a run
of a compiled program has halted, whatever state it started from, it ends in the same state with any
larger budget, and any number of pairs of steps leaves it on the loop with the same memory. -/
theorem halt_lasts :
    (∀ (code : Array Instruction) (budget more : Nat) (machine : Machine),
      Machine.run code (budget + more) machine =
        Machine.run code budget machine >>= Machine.run code more) ∧
    (∀ (code : Array Instruction) (machine : Machine), checkHalted code machine = .ok true →
      ∃ destination after,
        code[machine.counter + 1]? =
          some (.compute destination (.known .zero) (.known .always)) ∧
        steps code 2 machine = .ok after ∧ after.counter = machine.counter ∧
        checkHalted code after = .ok true ∧
        (destination.m = false → after.memory = machine.memory)) ∧
    ∀ (bootstrap : Bool) (modules : List Module) (text : String) (program : Program),
      Produces bootstrap modules text → Program.load text = .ok program →
      ∀ (machine stopped : Machine) (budget : Nat),
        Machine.run program.code budget machine = .ok stopped →
        checkHalted program.code stopped = .ok true →
        (∀ more, Machine.run program.code (budget + more) machine = .ok stopped) ∧
        ∀ pairs, ∃ later, steps program.code (2 * pairs) stopped = .ok later ∧
          later.memory = stopped.memory ∧ later.counter = stopped.counter ∧
          checkHalted program.code later = .ok true := by
  refine ⟨run_add, ?_, ?_⟩
  · intro code machine halted
    obtain ⟨low, destination, loop⟩ := checkHalted_iff.mp halted
    have again : LoopAt code (machine.turn destination).counter destination := loop
    exact ⟨destination, machine.turn destination, loop.jump, loop.steps_two, rfl,
      again.halted low, turn_memory⟩
  · intro bootstrap modules text program produced loaded machine stopped budget ran halted
    obtain ⟨low, destination, loop⟩ := checkHalted_iff.mp halted
    refine ⟨fun more => ?_, fun pairs => ?_⟩
    · rw [run_add, ran]
      exact run_of_stopped halted rfl more
    · obtain ⟨later, taken, memory, counter⟩ :=
        loop.steps_pairs (produced.quiet loaded loop) pairs
      refine ⟨later, taken, memory, counter, ?_⟩
      rw [← counter] at low loop
      exact loop.halted low

end HackStack
