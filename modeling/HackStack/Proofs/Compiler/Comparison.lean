import HackStack.Proofs.Compiler.Simulation

/-! Comparisons. A comparison decides by the sign of a difference modulo `2 ^ 16`, so that it is the
signed order where the difference fits into sixteen bits, and the reverse order elsewhere. -/
namespace HackStack
open Assembly Machine Reference

/-- The difference of two words, as signed numbers, is a signed number of sixteen bits. -/
def DifferenceFits (x y : Word) : Prop :=
  -32768 ≤ x.toInt - y.toInt ∧ x.toInt - y.toInt ≤ 32767

instance (x y : Word) : Decidable (DifferenceFits x y) := inferInstanceAs (Decidable (_ ∧ _))

theorem toInt_sub_of_fits {x y : Word} (fits : DifferenceFits x y) :
    (x - y).toInt = x.toInt - y.toInt := by
  rw [BitVec.toInt_sub]
  apply Int.bmod_eq_of_le
  · exact fits.1
  · have := fits.2
    omega

/-- Outside sixteen bits the difference has the wrong sign. -/
theorem toInt_sub_of_not_fits {x y : Word} (overflows : ¬ DifferenceFits x y) :
    (0 < (x - y).toInt ↔ x.toInt < y.toInt) ∧ ((x - y).toInt < 0 ↔ y.toInt < x.toInt) := by
  have first := x.toInt_lt
  have second := y.toInt_lt
  have third := x.le_toInt
  have fourth := y.le_toInt
  simp only [DifferenceFits] at overflows
  rw [BitVec.toInt_sub, Int.bmod_def]
  split <;> omega

theorem toInt_sub_eq_zero {x y : Word} : (x - y).toInt = 0 ↔ x = y := by
  rw [← BitVec.toInt_zero, BitVec.toInt_inj]
  constructor <;> intro equal <;> bv_omega

namespace Operation

def comparisons : List Operation := [.eq, .gt, .lt]

def test (difference : Word) : Operation → Bool
  | .eq => difference.toInt = 0
  | .gt => 0 < difference.toInt
  | .lt => difference.toInt < 0
  | _ => false

def relates (x y : Word) : Operation → Bool
  | .eq => x = y
  | .gt => if DifferenceFits x y then y.toInt < x.toInt else x.toInt < y.toInt
  | .lt => if DifferenceFits x y then x.toInt < y.toInt else y.toInt < x.toInt
  | _ => false

theorem apply_comparison {operation : Operation} (member : operation ∈ comparisons)
    (memory : Memory) :
    operation.apply memory =
      memory.combine fun under top => truth (operation.test (under - top)) := by
  simp only [comparisons, List.mem_cons, List.not_mem_nil, or_false] at member
  rcases member with rfl | rfl | rfl <;> rfl

theorem test_sub (operation : Operation) (x y : Word) :
    operation.test (x - y) = operation.relates x y := by
  cases operation with
  | eq => simp only [test, relates, toInt_sub_eq_zero]
  | gt =>
    by_cases fits : DifferenceFits x y
    · simp only [test, relates, fits, toInt_sub_of_fits, if_true, decide_eq_decide]
      omega
    · simp only [test, relates, fits, (toInt_sub_of_not_fits fits).1, if_false]
  | lt =>
    by_cases fits : DifferenceFits x y
    · simp only [test, relates, fits, toInt_sub_of_fits, if_true, decide_eq_decide]
      omega
    · simp only [test, relates, fits, (toInt_sub_of_not_fits fits).2, if_false]
  | add | sub | neg | and | or | not => rfl

end Operation

/-- The block of a comparison leaves its answer below the top of the stack. -/
theorem Image.executes_comparison {image : Image} {index : Nat} {generator : Generator}
    {operation : Operation} (member : operation ∈ Operation.comparisons)
    (here : image.sites[index]? = some (.compiled generator (.arithmetic operation.mnemonic)))
    {machine : Machine} (start : machine.counter = image.address index) {pointer : Word}
    (points : machine.memory.read Cell.stack = pointer) (low : 258 ≤ pointer.toNat) :
    ∃ result, Executes image.program.code (image.address index) (image.address (index + 1))
        machine result ∧
      result.counter = image.address (index + 1) ∧
      result.memory.read Cell.stack = pointer - 1 ∧
      result.memory.read (pointer - 2) = truth (operation.test
        (machine.memory.read (pointer - 2) - machine.memory.read (pointer - 1))) := by
  have taken : Reference.step image.sites image.program.value ⟨index, machine.memory⟩ =
      some ⟨index + 1, operation.apply machine.memory⟩ := by
    simp [Reference.step, here, act]
  obtain ⟨result, executed, counter, agree⟩ :=
    @performs_step image ⟨index, machine.memory⟩ _ _ here trivial taken machine start rfl
  rw [Operation.apply_comparison member] at agree
  obtain ⟨stack, answer⟩ := Memory.read_combine
    (fun under top => truth (operation.test (under - top))) points (by omega)
  refine ⟨result, executed, counter, ?_, ?_⟩
  · rw [agree.stack, stack]
  · rw [agree, answer]
    rintro (frame | landing)
    · simp only [Cell.frame] at frame
      bv_omega
    · simp only [Cell.landing] at landing
      bv_omega

/-- Comparisons implement the signed order where the difference fits into sixteen bits; elsewhere
`gt` and `lt` answer the opposite. Equality is always right. -/
theorem comparison_leaves_relation (image : Image) {index : Nat} {generator : Generator}
    {operation : Operation} (member : operation ∈ Operation.comparisons)
    (here : image.sites[index]? = some (.compiled generator (.arithmetic operation.mnemonic)))
    (machine : Machine) (start : machine.counter = image.address index) (pointer : Word)
    (points : machine.memory.read Cell.stack = pointer) (low : 258 ≤ pointer.toNat) :
    ∃ result, Executes image.program.code (image.address index) (image.address (index + 1))
        machine result ∧
      result.counter = image.address (index + 1) ∧
      result.memory.read Cell.stack = pointer - 1 ∧
      result.memory.read (pointer - 2) = truth (operation.relates
        (machine.memory.read (pointer - 2)) (machine.memory.read (pointer - 1))) := by
  rw [← Operation.test_sub]
  exact image.executes_comparison member here start points low

def comparingModules : List Module :=
  [⟨"Main", [.push .constant 32767, .push .constant 1, .arithmetic "neg", .arithmetic "gt"]⟩]

theorem exists_comparing : ∃ image : Image, image.sites = listing false comparingModules :=
  @exists_image false [("Main", "push constant 32767\npush constant 1\nneg\ngt")] comparingModules
    (by decide +kernel) (by decide +kernel) (by decide +kernel) (by decide +kernel)
    (by decide +kernel)

def comparing (image : Image) (x y : Word) : Machine :=
  { memory := ((Memory.zero.write Cell.stack 258).write 256 x).write 257 y
    counter := image.address 3 }

theorem comparing_memory (image : Image) (x y : Word) :
    (comparing image x y).memory.read Cell.stack = 258 ∧
      (comparing image x y).memory.read 256 = x ∧ (comparing image x y).memory.read 257 = y := by
  refine ⟨?_, ?_, Memory.read_write_self ..⟩
  · rw [comparing, Memory.read_write_of_ne _ _ (by decide), Memory.read_write_of_ne _ _ (by decide),
      Memory.read_write_self]
  · rw [comparing, Memory.read_write_of_ne _ _ (by decide), Memory.read_write_self]

theorem comparison_leaves_relation_seven : ∃ (image : Image) (result : Machine),
    Executes image.program.code (image.address 3) (image.address 4) (comparing image 7 3) result ∧
      result.memory.read 256 = -1 := by
  obtain ⟨image, sites⟩ := exists_comparing
  obtain ⟨points, x, y⟩ := comparing_memory image 7 3
  obtain ⟨result, executed, -, -, answer⟩ := comparison_leaves_relation image
    (by decide : Operation.gt ∈ Operation.comparisons) (by rw [sites]; rfl) (comparing image 7 3)
    rfl 258 points (by decide)
  refine ⟨image, result, executed, ?_⟩
  rw [(by decide : (258 - 2 : Word) = 256), (by decide : (258 - 1 : Word) = 257), x, y] at answer
  exact answer.trans (by decide)

/-- The largest number is not found to be greater than -1: their difference wraps around. -/
theorem comparison_reverses_largest : ∃ (image : Image) (result : Machine),
    Executes image.program.code (image.address 3) (image.address 4) (comparing image 32767 (-1))
        result ∧
      (-1 : Word).toInt < (32767 : Word).toInt ∧ result.memory.read 256 = 0 := by
  obtain ⟨image, sites⟩ := exists_comparing
  obtain ⟨points, x, y⟩ := comparing_memory image 32767 (-1)
  obtain ⟨result, executed, -, -, answer⟩ := image.executes_comparison
    (by decide : Operation.gt ∈ Operation.comparisons) (by rw [sites]; rfl) rfl points (by decide)
  refine ⟨image, result, executed, by decide, ?_⟩
  rw [(by decide : (258 - 2 : Word) = 256), (by decide : (258 - 1 : Word) = 257), x, y] at answer
  exact answer.trans (by decide)

end HackStack
