import HackStack.Proofs.Machine.Execution

/-! Halting. The machine has halted where it loads the address that its counter is on and a jump
that computes zero follows. It turns in place there: two steps lead back, and only a jump that also
stores can change memory. A run stops at such a loop and outside the program, and stays stopped, so
two runs one after the other are one run with both budgets. -/
namespace HackStack.Machine
open Assembly

/-- A loop at an address: the address is loaded, and a jump that computes zero follows. -/
structure LoopAt (code : Array Instruction) (first : Nat) (destination : Destination) : Prop where
  fits : first < 65536
  load : code[first]? = some (.address (BitVec.ofNat 16 first))
  jump : code[first + 1]? = some (.compute destination (.known .zero) (.known .always))

def OnLoop (first : Nat) (machine : Machine) : Prop :=
  machine.counter = first ∨ machine.counter = first + 1 ∧ machine.a.toNat = first

def turn (destination : Destination) (machine : Machine) : Machine :=
  { machine with a := BitVec.ofNat 16 machine.counter }.store destination 0

variable {code : Array Instruction} {machine : Machine} {first : Nat} {destination : Destination}

@[simp] theorem turn_counter : (machine.turn destination).counter = machine.counter := rfl

theorem turn_memory (quiet : destination.m = false) :
    (machine.turn destination).memory = machine.memory := by
  simp [turn, store, quiet]

namespace LoopAt

theorem steps_two (loop : LoopAt code machine.counter destination) :
    steps code 2 machine = .ok (machine.turn destination) := by
  have target : (BitVec.ofNat 16 machine.counter).toNat = machine.counter :=
    Nat.mod_eq_of_lt loop.fits
  simp only [steps, step, loop.load, loop.jump, Computation.value, Jump.taken, if_true, target]
  rfl

/-- Any number of turns leads back; without a store memory stays as it is. -/
theorem steps_pairs (loop : LoopAt code machine.counter destination)
    (quiet : destination.m = false) (pairs : Nat) :
    ∃ later, steps code (2 * pairs) machine = .ok later ∧ later.memory = machine.memory ∧
      later.counter = machine.counter := by
  induction pairs generalizing machine with
  | zero => exact ⟨machine, rfl, rfl, rfl⟩
  | succ pairs ih =>
    obtain ⟨later, rest, memory, counter⟩ := @ih (machine.turn destination) loop
    refine ⟨later, ?_, memory.trans (turn_memory quiet), counter⟩
    rw [Nat.mul_succ, Nat.add_comm]
    exact steps_append loop.steps_two rest

/-- Also between the two instructions, the machine stays on the loop. -/
theorem step (loop : LoopAt code first destination) (quiet : destination.m = false)
    (inside : machine.OnLoop first) :
    ∃ next, Machine.step code machine = .ok next ∧ next.memory = machine.memory ∧
      next.OnLoop first := by
  rcases inside with start | ⟨second, address⟩
  · have load := loop.load
    rw [← start] at load
    refine ⟨{ machine with a := BitVec.ofNat 16 machine.counter, counter := machine.counter + 1 },
      ?_, rfl, .inr ⟨congrArg (· + 1) start, ?_⟩⟩
    · simp only [Machine.step, load]
    · exact start ▸ Nat.mod_eq_of_lt (start ▸ loop.fits)
  · have jump := loop.jump
    rw [← second] at jump
    refine ⟨{ machine.store destination 0 with counter := machine.a.toNat }, ?_, ?_, .inl address⟩
    · simp only [Machine.step, jump, Computation.value, Jump.taken, if_true]
    · simp [store, quiet]

/-- However long it goes on, a machine on a loop stays on it and changes no memory. -/
theorem steps (loop : LoopAt code first destination) (quiet : destination.m = false)
    (inside : machine.OnLoop first) (count : Nat) :
    ∃ later, Machine.steps code count machine = .ok later ∧ later.memory = machine.memory ∧
      later.OnLoop first := by
  induction count generalizing machine with
  | zero => exact ⟨machine, rfl, rfl, inside⟩
  | succ count ih =>
    obtain ⟨next, taken, same, still⟩ := loop.step quiet inside
    obtain ⟨later, rest, kept, there⟩ := ih still
    refine ⟨later, ?_, kept.trans same, there⟩
    rw [Machine.steps, taken]
    exact rest

end LoopAt

theorem toInt_eq_iff {value : Word} {number : Nat} :
    value.toInt = number ↔ number ≤ maxConstant ∧ value = BitVec.ofNat 16 number := by
  have bound := value.isLt
  rw [BitVec.toInt_eq_toNat_cond, ← BitVec.toNat_inj, BitVec.toNat_ofNat]
  simp only [maxConstant]
  split <;> omega

theorem LoopAt.halted (loop : LoopAt code machine.counter destination)
    (low : machine.counter ≤ maxConstant) : checkHalted code machine = .ok true := by
  have signed : (BitVec.ofNat 16 machine.counter).toInt = machine.counter :=
    toInt_eq_iff.mpr ⟨low, rfl⟩
  have readable : machine.counter + 1 < counterLimit := by
    simp only [maxConstant] at low
    simp only [counterLimit, UInt64.size]
    omega
  rw [checkHalted_of_lt readable, Machine.halted, loop.load, loop.jump]
  simp [signed]

/-- The machine has halted exactly on a loop. Since the loaded address is compared as a signed
number, no loop above the largest constant counts. -/
theorem checkHalted_iff : checkHalted code machine = .ok true ↔
    machine.counter ≤ maxConstant ∧ ∃ destination, LoopAt code machine.counter destination := by
  constructor
  · intro asked
    unfold checkHalted at asked
    split at asked
    · obtain ⟨self, jumps⟩ := Bool.and_eq_true_iff.mp (Except.ok.inj asked)
      split at self
      · rename_i value load
        obtain ⟨low, rfl⟩ := toInt_eq_iff.mp (of_decide_eq_true self)
        refine ⟨low, ?_⟩
        split at jumps
        · rename_i destination jump
          simp only [maxConstant] at low
          exact ⟨destination, by omega, load, jump⟩
        · cases jumps
      · cases self
    · cases asked
  · rintro ⟨low, destination, loop⟩
    exact loop.halted low

/-- A run does nothing where it would stop. -/
theorem run_of_stopped {stopped : Bool} (asked : checkHalted code machine = .ok stopped)
    (ends : (stopped || code.size ≤ machine.counter) = true) (budget : Nat) :
    run code budget machine = .ok machine := by
  cases budget with
  | zero => rfl
  | succ budget => simp only [run, asked, ends, if_true]

theorem run_add (code : Array Instruction) (budget more : Nat) (machine : Machine) :
    run code (budget + more) machine = run code budget machine >>= run code more := by
  induction budget generalizing machine with
  | zero =>
    rw [Nat.zero_add]
    rfl
  | succ budget ih =>
    simp only [Nat.succ_add, run]
    cases asked : checkHalted code machine with
    | error fault => rfl
    | ok stopped =>
      simp only
      split
      · rename_i ends
        exact (run_of_stopped asked ends more).symm
      · cases Machine.step code machine with
        | error stop => rfl
        | ok next => exact ih next

end HackStack.Machine
