import HackStack.Proofs.Machine.Execution

/-! Execution without faults. Instructions whose fields are all known can be executed in every
state, and no execution takes the counter to where it cannot be read. -/
namespace HackStack
open Assembly

def Assembly.Instruction.Known : Instruction → Prop
  | .address _ => True
  | .compute _ (.known _) (.known _) => True
  | .compute .. => False

namespace Machine

/-- Code in which every instruction can be executed, and that fits into the instruction memory. -/
structure Executable (code : Array Instruction) : Prop where
  known : ∀ instruction ∈ code, instruction.Known
  fits : code.size ≤ maxConstant

namespace Executable

variable {code : Array Instruction} {machine : Machine}

theorem step_ok (executable : Executable code) (inside : machine.counter < code.size) :
    ∃ next, step code machine = .ok next ∧ next.counter < 65536 := by
  have here : code[machine.counter]? = some code[machine.counter] :=
    Array.getElem?_eq_getElem inside
  have known := executable.known _ (Array.getElem_mem inside)
  have fits := executable.fits
  simp only [maxConstant] at fits
  have room : machine.counter + 1 < 65536 := by omega
  unfold step
  rw [here]
  generalize code[machine.counter] = instruction at known
  cases instruction with
  | address value => exact ⟨_, rfl, room⟩
  | compute destination computation jump =>
    cases computation with
    | unknown => exact known.elim
    | known computation =>
      cases jump with
      | unknown => exact known.elim
      | known jump =>
        refine ⟨_, rfl, ?_⟩
        simp only
        split
        · exact machine.a.isLt
        · exact room

/-- No run faults, whatever the state it starts from and however long it is. -/
theorem run_ok (executable : Executable code) (budget : Nat) (bound : machine.counter < 65536) :
    ∃ after, run code budget machine = .ok after ∧ after.counter < 65536 := by
  induction budget generalizing machine with
  | zero => exact ⟨machine, rfl, bound⟩
  | succ budget ih =>
    have readable : machine.counter + 1 < counterLimit := by
      simp only [counterLimit, UInt64.size]
      omega
    rw [run, checkHalted_of_lt readable]
    simp only
    split
    · exact ⟨machine, rfl, bound⟩
    · rename_i going
      have inside : machine.counter < code.size := by
        simp only [Bool.or_eq_true, decide_eq_true_eq, not_or, Nat.not_le] at going
        exact going.2
      obtain ⟨next, stepped, near⟩ := executable.step_ok inside
      obtain ⟨after, ran, final⟩ := ih near
      refine ⟨after, ?_, final⟩
      rw [stepped]
      exact ran

end Executable

/-- Legal statements are loaded as executable code. -/
theorem executable_of_assemble {statements : List Statement} {program : Program}
    (legal : ∀ statement ∈ statements, statement.Legal)
    (assembled : assemble statements = .ok program) : Executable program.code := by
  obtain ⟨-, -, -, code⟩ := assemble_ok assembled
  constructor
  · intro instruction member
    rw [← Array.mem_toList_iff, code] at member
    obtain ⟨statement, inside, made⟩ := List.mem_filterMap.mp member
    have legal := legal statement inside
    match statement with
    | .label _ => cases made
    | .address _ =>
      cases made
      trivial
    | .compute _ (.known _) (.known _) =>
      cases made
      trivial
  · have count := length_instructions program.value fun statement member =>
      (legal statement member).isClosed
    rw [← Array.length_toList, code, count]
    exact size_of_assemble assembled

end Machine
end HackStack
