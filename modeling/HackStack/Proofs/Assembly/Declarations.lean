import HackStack.Proofs.Machine.Execution

/-! Declarations and the code around them. The first pass counts addresses and the second one makes
instructions. They differ by the unclosed declarations, so a label leads to the first instruction
behind it exactly if none of these stands before it. -/
namespace HackStack.Assembly

theorem not_mem_labels_of_once {before after : List Statement} {name : String}
    (once : (labels (before ++ .label name :: after)).count name = 1) : name ∉ labels after := by
  have parts : labels (before ++ .label name :: after) =
      labels before ++ name :: labels after := by
    rw [labels_append]
    rfl
  rw [parts, List.count_append, List.count_cons_self] at once
  exact List.not_mem_of_count_eq_zero (by omega)

theorem code_around {before after : List Statement} {name : String} {program : Program}
    (assembled : assemble (before ++ .label name :: after) = .ok program) :
    program.code.toList =
      instructions program.value before ++ instructions program.value after := by
  obtain ⟨-, -, -, code⟩ := assemble_ok assembled
  rw [code, instructions_append]
  rfl

/-- At the address of a label is the instruction behind it that has as many others before it as
there are unclosed declarations above the label. -/
theorem getElem?_code_label {before after : List Statement} {name : String} {program : Program}
    (assembled : assemble (before ++ .label name :: after) = .ok program) :
    program.code[size before]? = (instructions program.value after)[unclosed before]? := by
  rw [← Array.getElem?_toList, code_around assembled, size_eq_length_add program.value before,
    List.getElem?_append_right (Nat.le_add_right ..), Nat.add_sub_cancel_left]

/-- Where a label leads. In a text that loads, a label that is declared once has as its value the
number of instructions made from the lines before its declaration, and one more for each of these
lines that opens a declaration and does not close it. So the value is the number of instructions
exactly if every declaration before it is closed. A jump to the label goes on with the instruction
behind it that has as many others before it as there are unclosed declarations, or leaves the
program if there is none; without unclosed ones this is the first instruction behind the label. -/
theorem label_counts_instructions {source name : String} {program : Program}
    (loaded : Program.load source = .ok program) {before after : List Statement}
    (split : Statement.ofSource source = before ++ .label name :: after)
    (once : (labels (Statement.ofSource source)).count name = 1) :
    ∃ address, program.symbol name = .ok address ∧
      program.code.toList =
        instructions program.value before ++ instructions program.value after ∧
      address.toNat = (instructions program.value before).length + unclosed before ∧
      (address.toNat = (instructions program.value before).length ↔
        ∀ statement ∈ before, statement.isClosed = true) ∧
      ∀ (machine : Machine) destination computation jump, machine.a = address →
        program.code[machine.counter]? =
          some (.compute destination (.known computation) (.known jump)) →
        jump.taken (computation.value address machine.d (machine.memory.read address)) = true →
        ∃ next, Machine.step program.code machine = .ok next ∧ next.counter = address.toNat ∧
          program.code[next.counter]? = (instructions program.value after)[unclosed before]? := by
  rw [split] at once
  rw [Program.load, split] at loaded
  have last := not_mem_labels_of_once once
  have address := toNat_value_label loaded last
  have count := size_eq_length_add program.value before
  refine ⟨program.value name, symbol_label loaded last, code_around loaded, address.trans count,
    ?_, ?_⟩
  · rw [address, count, ← unclosed_eq_zero_iff]
    omega
  · intro machine destination computation jump aimed here taken
    have arrives : (machine.transfer destination computation jump).counter =
        (program.value name).toNat := by
      simp only [Machine.transfer, aimed, taken, if_true]
    refine ⟨machine.transfer destination computation jump, ?_, arrives, ?_⟩
    · simp only [Machine.step, here, Machine.transfer]
    · rw [arrives, address]
      exact getElem?_code_label loaded

def closedBefore : String := "@7\nD=A\n(L)\n(broken\nM=D\n@L\n0;JMP\n"

/-- The jump at the end leads to the instruction that stores. -/
theorem label_counts_instructions_closed : ∃ program next,
    Program.load closedBefore = .ok program ∧ program.symbol "L" = .ok 2 ∧
      Machine.step program.code { counter := 4, a := 2 } = .ok next ∧
      program.code[next.counter]? =
        some (.compute .onlyM (.known (.copy .d)) (.known .never)) := by
  have read : Statement.ofSource closedBefore =
      [.number 7, .store .onlyD (.copy .a)] ++ .label "L" :: [.unclosed "broken",
        .store .onlyM (.copy .d), .symbol "L", .jump .zero .always] := by decide +kernel
  obtain ⟨program, loaded⟩ : ∃ program, Program.load closedBefore = .ok program :=
    assemble_succeeds (by decide +kernel) (by decide +kernel)
  obtain ⟨address, symbol, code, count, -, leads⟩ :=
    label_counts_instructions loaded read (by decide +kernel)
  obtain rfl : address = 2 := BitVec.eq_of_toNat_eq count
  have jump : program.code[4]? = some (.compute .none (.known .zero) (.known .always)) := by
    rw [← Array.getElem?_toList, code]
    rfl
  obtain ⟨next, taken, -, there⟩ := leads { counter := 4, a := 2 } .none .zero .always rfl jump rfl
  exact ⟨program, next, loaded, symbol, taken, there⟩

def unclosedBefore : String := "(broken\n(L)\n@L\n0;JMP\n"

/-- No instruction is made from the line before the label, and yet the label has the value one. -/
theorem label_miscounts_unclosed : ∃ program,
    Program.load unclosedBefore = .ok program ∧
      Statement.ofSource unclosedBefore =
        [.unclosed "broken"] ++ .label "L" :: [.symbol "L", .jump .zero .always] ∧
      (labels (Statement.ofSource unclosedBefore)).count "L" = 1 ∧
      "L" ∉ predefined.map Prod.fst ∧
      (instructions program.value [.unclosed "broken"]).length = 0 ∧
      program.symbol "L" = .ok 1 := by
  have read : Statement.ofSource unclosedBefore =
      [.unclosed "broken"] ++ .label "L" :: [.symbol "L", .jump .zero .always] := by
    decide +kernel
  obtain ⟨program, loaded⟩ : ∃ program, Program.load unclosedBefore = .ok program :=
    assemble_succeeds (by decide +kernel) (by decide +kernel)
  have assembled := loaded
  rw [Program.load, read] at assembled
  refine ⟨program, loaded, read, by rw [read]; decide, by decide, rfl, ?_⟩
  rw [symbol_label assembled (by decide), value_label assembled (by decide)]
  rfl

end HackStack.Assembly
