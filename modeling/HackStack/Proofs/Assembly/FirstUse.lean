import HackStack.Proofs.Assembly.Variables
import Mathlib.Data.Finset.Card

/-! Which address a symbol is loaded as. A declared label stands for the place of its last
declaration, whatever it is called; a symbol that is only predefined for its own address; and any
other for a cell of its own, given out in the order of first use. -/
namespace HackStack.Assembly

theorem mem_references {name : String} {statements : List Statement} :
    name ∈ references statements ↔ Statement.symbol name ∈ statements := by
  rw [references, List.mem_filterMap]
  constructor
  · rintro ⟨statement, member, found⟩
    cases statement with
    | label | unclosed | compute => cases found
    | address operand =>
      cases operand with
      | number => cases found
      | symbol other =>
        cases found
        exact member
  · intro member
    exact ⟨_, member, rfl⟩

/-- The address that statements give to a symbol: that of its last declaration; or else its
predefined one; or else the cell behind those of the different variables that the statements before
its first use refer to. -/
inductive Allots (statements : List Statement) (name : String) : Nat → Prop
  | label (split : statements = before ++ .label name :: after) (last : name ∉ labels after) :
      Allots statements name (size before)
  | predefined (undeclared : name ∉ labels statements)
      (member : (name, value) ∈ Assembly.predefined) : Allots statements name value.toNat
  | cell (undeclared : name ∉ labels statements)
      (unknown : name ∉ Assembly.predefined.map Prod.fst)
      (split : statements = before ++ .symbol name :: after) (first : name ∉ references before) :
      Allots statements name (firstVariable + (variablesIn statements before).toFinset.card)

/-- A declared symbol has a last declaration. -/
theorem exists_last_label {name : String} {statements : List Statement}
    (declared : name ∈ labels statements) :
    ∃ before after, statements = before ++ .label name :: after ∧ name ∉ labels after := by
  have member := List.mem_reverse.mpr (mem_labels.mp declared)
  obtain ⟨after, before, split, first⟩ := List.eq_append_cons_of_mem member
  refine ⟨before.reverse, after.reverse, ?_, ?_⟩
  · rw [← List.reverse_reverse statements, split]
    simp
  · rwa [mem_labels, List.mem_reverse]

theorem exists_allots {name : String} {statements : List Statement}
    (used : name ∈ references statements) : ∃ number, Allots statements name number := by
  by_cases declared : name ∈ labels statements
  · obtain ⟨before, after, split, last⟩ := exists_last_label declared
    exact ⟨_, .label split last⟩
  · by_cases known : name ∈ predefined.map Prod.fst
    · obtain ⟨⟨_, value⟩, member, rfl⟩ := List.mem_map.mp known
      exact ⟨_, .predefined declared member⟩
    · obtain ⟨before, after, split, first⟩ :=
        List.eq_append_cons_of_mem (mem_references.mp used)
      exact ⟨_, .cell declared known split fun met => first (mem_references.mp met)⟩

theorem length_eraseDups {α : Type} [DecidableEq α] (entries : List α) :
    entries.eraseDups.length = entries.toFinset.card := by
  rw [← List.toFinset_card_of_nodup (nodup_eraseDups entries)]
  congr 1
  ext entry
  simp

/-- A loaded program has given every symbol the address that the statements give to it. -/
theorem Allots.value_eq {name : String} {statements : List Statement} {number : Nat}
    {program : Program} (assembled : assemble statements = .ok program)
    (allots : Allots statements name number) : number = (program.value name).toNat := by
  cases allots with
  | label split last =>
    subst split
    exact (toNat_value_label assembled last).symm
  | predefined undeclared member => rw [value_predefined assembled member undeclared]
  | @cell before after undeclared unknown split first =>
    have used : name ∈ references statements := by
      rw [mem_references, split]
      simp
    rw [value_variableName assembled (mem_variableNames.mpr ⟨used, undeclared, unknown⟩)]
    subst split
    have fresh : name ∉ variablesIn (before ++ .symbol name :: after) before :=
      fun met => first (List.mem_filter.mp met).1
    have refers : (Statement.symbol name).reference? = some name := rfl
    have next : (variablesIn (before ++ .symbol name :: after)
        (.symbol name :: after)).head? = some name := by
      rw [variablesIn, references, List.filterMap_cons_some refers, List.filter_cons_of_pos]
      · rfl
      · rw [decide_eq_true_iff, List.mem_append, not_or]
        exact ⟨undeclared, unknown⟩
    rw [idxOf_variableNames next fresh, length_eraseDups]

/-- Only what stands behind an at sign and is no numeral is a symbol. -/
theorem ofText_eq_symbol_iff {code : List Char} {name : String} :
    Statement.ofText code = .symbol name ↔
      code = '@' :: name.toList ∧ Decimal.signed? name.toList = none := by
  constructor
  · intro read
    unfold Statement.ofText at read
    split at read
    · split at read <;> cases read
    · rename_i operand
      simp only [Statement.readOperand] at read
      split at read
      · cases read
      · rename_i numeral
        cases read
        rw [String.toList_ofList]
        exact ⟨rfl, numeral⟩
    · cases read
  · rintro ⟨rfl, numeral⟩
    simp only [Statement.ofText, Statement.readOperand, numeral, String.ofList_toList]
    rfl

theorem getElem?_code_symbol {before after : List Statement} {name : String} {program : Program}
    (assembled : assemble (before ++ .symbol name :: after) = .ok program) :
    program.code[(instructions program.value before).length]? =
      some (.address (program.value name)) := by
  obtain ⟨-, -, -, code⟩ := assemble_ok assembled
  rw [← Array.getElem?_toList, code, instructions_append, instructions_cons _ (.symbol name)]
  simp [instructions, Statement.instruction?, Statement.symbol, Operand.value]

/-- Symbols are resolved by declaration, then by what is predefined, then by first use. In a text
that loads, every symbol that is referred to has one address, the one that the statements give to
it, and is loaded as that address wherever it stands, before or behind its declaration. Two symbols
that are neither declared nor predefined share a cell only if they are equal. -/
theorem symbols_allotted {source : String} {program : Program}
    (loaded : Program.load source = .ok program) :
    (∀ (code : List Char) (name : String), Statement.ofText code = .symbol name ↔
      code = '@' :: name.toList ∧ Decimal.signed? name.toList = none) ∧
    (∀ name ∈ references (Statement.ofSource source), ∃ address,
      program.symbol name = .ok address ∧
      (∀ number, Allots (Statement.ofSource source) name number ↔ number = address.toNat) ∧
      ∀ before after, Statement.ofSource source = before ++ .symbol name :: after →
        program.code[(instructions program.value before).length]? = some (.address address)) ∧
    ∀ name ∈ variableNames (Statement.ofSource source),
      ∀ other ∈ variableNames (Statement.ofSource source),
        program.symbol name = program.symbol other ↔ name = other := by
  rw [Program.load] at loaded
  refine ⟨fun _ _ => ofText_eq_symbol_iff, ?_, ?_⟩
  · intro name used
    refine ⟨program.value name, symbol_of_mem_references loaded used, fun number => ?_, ?_⟩
    · constructor
      · exact Allots.value_eq loaded
      · rintro rfl
        obtain ⟨number, allots⟩ := exists_allots used
        exact allots.value_eq loaded ▸ allots
    · intro before after split
      rw [split] at loaded
      exact getElem?_code_symbol loaded
  · intro name here other there
    rw [symbol_of_mem_references loaded (mem_variableNames.mp here).1,
      symbol_of_mem_references loaded (mem_variableNames.mp there).1, Except.ok.injEq,
      value_variableName_inj loaded here there]

/-- A variable that is used twice before the next one, a label that is used before and behind its
declaration, and a label with the name of a predefined symbol. -/
def interwoven : String := "@y\n@L\n@SP\n(L)\n@L\n@y\n@z\n(SP)\n"

/-- Both uses of `L` load 3, `SP` is the label and not the stack pointer, and `z` is the second
variable. -/
theorem symbols_allotted_interwoven : ∃ program, Program.load interwoven = .ok program ∧
    program.code[1]? = some (.address 3) ∧ program.code[3]? = some (.address 3) ∧
    program.code[2]? = some (.address 6) ∧ program.code[5]? = some (.address 17) ∧
    program.symbol "y" ≠ program.symbol "z" := by
  have read : Statement.ofSource interwoven =
      [.symbol "y", .symbol "L", .symbol "SP", .label "L", .symbol "L", .symbol "y", .symbol "z",
        .label "SP"] := by decide +kernel
  obtain ⟨program, loaded⟩ : ∃ program, Program.load interwoven = .ok program :=
    assemble_succeeds (by decide +kernel) (by decide +kernel)
  obtain ⟨-, resolved, apart⟩ := symbols_allotted loaded
  rw [read] at resolved apart
  obtain ⟨label, -, labelled, jumps⟩ := resolved "L" (by decide)
  obtain rfl : 3#16 = label := BitVec.eq_of_toNat_eq ((labelled 3).mp
    (@Allots.label _ _ [.symbol "y", .symbol "L", .symbol "SP"] _ rfl (by decide)))
  obtain ⟨stack, -, declared, loads⟩ := resolved "SP" (by decide)
  obtain rfl : 6#16 = stack := BitVec.eq_of_toNat_eq ((declared 6).mp
    (@Allots.label _ _ [.symbol "y", .symbol "L", .symbol "SP", .label "L", .symbol "L",
      .symbol "y", .symbol "z"] _ rfl (by decide)))
  obtain ⟨second, -, given, stores⟩ := resolved "z" (by decide)
  obtain rfl : 17#16 = second := BitVec.eq_of_toNat_eq ((given 17).mp
    (@Allots.cell _ _ [.symbol "y", .symbol "L", .symbol "SP", .label "L", .symbol "L",
      .symbol "y"] _ (by decide) (by decide) rfl (by decide)))
  refine ⟨program, loaded, jumps [.symbol "y"] _ rfl,
    jumps [.symbol "y", .symbol "L", .symbol "SP", .label "L"] _ rfl,
    loads [.symbol "y", .symbol "L"] _ rfl,
    stores [.symbol "y", .symbol "L", .symbol "SP", .label "L", .symbol "L", .symbol "y"] _ rfl, ?_⟩
  rw [ne_eq, apart "y" (by decide) "z" (by decide)]
  decide

end HackStack.Assembly
