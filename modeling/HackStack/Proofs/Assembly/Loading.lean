import HackStack.Proofs.Assembly.Reading
import HackStack.Assembly.Program

/-! What loading does to a list of statements. Every instruction is its statement with the symbols
of the loaded program put in; a label has the number of addresses before its last declaration; a
symbol once known keeps its value. -/
namespace HackStack.Assembly

theorem bind_ok {action : Except ε α} {next : α → Except ε β} {value : β}
    (result : (action >>= next) = .ok value) : ∃ x, action = .ok x ∧ next x = .ok value := by
  cases action with
  | error error => cases result
  | ok x => exact ⟨x, rfl, result⟩

theorem getElem?_insert (symbols : SymbolTable) (name other : String) (value : Word) :
    (symbols.insert name value)[other]? = if name = other then some value else symbols[other]? := by
  rw [Std.TreeMap.getElem?_insert]
  simp only [Std.LawfulEqCmp.compare_eq_iff_eq]

namespace Statement

def label? : Statement → Option String
  | .label name => some name
  | _ => none

def reference? : Statement → Option String
  | .address (.symbol name) => some name
  | _ => none

def takesAddress (statement : Statement) : Bool := statement.label?.isNone

end Statement

/-- The labels that statements declare, in order. -/
def labels (statements : List Statement) : List String := statements.filterMap Statement.label?

def references (statements : List Statement) : List String :=
  statements.filterMap Statement.reference?

/-- The number of addresses that statements take up. -/
def size (statements : List Statement) : Nat := statements.countP Statement.takesAddress

@[simp] theorem size_append (first second : List Statement) :
    size (first ++ second) = size first + size second := List.countP_append

@[simp] theorem labels_append (first second : List Statement) :
    labels (first ++ second) = labels first ++ labels second := List.filterMap_append

@[simp] theorem references_append (first second : List Statement) :
    references (first ++ second) = references first ++ references second :=
  List.filterMap_append

theorem size_cons (statement : Statement) (rest : List Statement) :
    size (statement :: rest) = size [statement] + size rest := by
  rw [← size_append]
  rfl

theorem mem_labels {name : String} {statements : List Statement} :
    name ∈ labels statements ↔ Statement.label name ∈ statements := by
  unfold labels
  rw [List.mem_filterMap]
  constructor
  · rintro ⟨statement, member, found⟩
    cases statement with
    | label other => cases found; exact member
    | unclosed | address | compute => cases found
  · intro member
    exact ⟨_, member, rfl⟩

namespace LabelPass

theorem visit_ok {pass after : LabelPass} {statement : Statement}
    (visited : pass.visit statement = .ok after) :
    after.next = pass.next + size [statement] ∧
      (after.next ≤ max pass.next maxConstant) ∧
      after.symbols = match statement.label? with
        | some name => pass.symbols.insert name (BitVec.ofNat 16 pass.next)
        | none => pass.symbols := by
  cases statement with
  | label name =>
    cases visited
    exact ⟨rfl, Nat.le_max_left .., rfl⟩
  | unclosed | address | compute =>
    simp only [visit] at visited
    split at visited
    · cases visited
      exact ⟨rfl, by simp only; omega, rfl⟩
    · cases visited

theorem run_next {pass after : LabelPass} {statements : List Statement}
    (run : statements.foldlM visit pass = .ok after) :
    after.next = pass.next + size statements ∧ after.next ≤ max pass.next maxConstant := by
  induction statements generalizing pass with
  | nil => cases run; exact ⟨rfl, Nat.le_max_left ..⟩
  | cons statement rest ih =>
    rw [List.foldlM_cons] at run
    obtain ⟨middle, first, last⟩ := bind_ok run
    obtain ⟨next, bound, -⟩ := visit_ok first
    obtain ⟨total, limit⟩ := ih last
    rw [size_cons]
    omega

theorem run_undeclared {pass after : LabelPass} {statements : List Statement} {name : String}
    (run : statements.foldlM visit pass = .ok after) (free : name ∉ labels statements) :
    after.symbols[name]? = pass.symbols[name]? := by
  induction statements generalizing pass with
  | nil => cases run; rfl
  | cons statement rest ih =>
    rw [List.foldlM_cons] at run
    obtain ⟨middle, first, last⟩ := bind_ok run
    have later : name ∉ labels rest := fun member => free (by
      rw [mem_labels] at member ⊢
      exact List.mem_cons_of_mem _ member)
    rw [ih last later, (visit_ok first).2.2]
    split
    · rename_i other found
      have different : other ≠ name := by
        rintro rfl
        exact free (List.mem_filterMap.mpr ⟨statement, List.mem_cons_self, found⟩)
      rw [getElem?_insert, if_neg different]
    · rfl

/-- The last declaration of a label counts, and gives the number of addresses before it. -/
theorem run_declared {pass after : LabelPass} {before later : List Statement} {name : String}
    (run : (before ++ .label name :: later).foldlM visit pass = .ok after)
    (last : name ∉ labels later) :
    after.symbols[name]? = some (BitVec.ofNat 16 (pass.next + size before)) := by
  rw [List.foldlM_append] at run
  obtain ⟨middle, first, rest⟩ := bind_ok run
  rw [List.foldlM_cons] at rest
  obtain ⟨declared, visited, rest⟩ := bind_ok rest
  rw [run_undeclared rest last, (visit_ok visited).2.2]
  simp [Statement.label?, (run_next first).1]

/-- The first pass succeeds as long as all addresses fit. -/
theorem run_succeeds {pass : LabelPass} {statements : List Statement}
    (fits : pass.next + size statements ≤ maxConstant) :
    ∃ after, statements.foldlM visit pass = .ok after := by
  induction statements generalizing pass with
  | nil => exact ⟨pass, rfl⟩
  | cons statement rest ih =>
    rw [size_cons] at fits
    have visited : ∃ middle, pass.visit statement = .ok middle := by
      cases statement with
      | label name => exact ⟨_, rfl⟩
      | unclosed | address | compute =>
        have room : pass.next < maxConstant := by
          simp [size, Statement.takesAddress, Statement.label?] at fits
          omega
        exact ⟨_, if_pos room⟩
    obtain ⟨middle, visited⟩ := visited
    have room : middle.next + size rest ≤ maxConstant := by
      rw [(visit_ok visited).1]
      omega
    obtain ⟨after, run⟩ := ih room
    refine ⟨after, ?_⟩
    rw [List.foldlM_cons, visited]
    exact run

end LabelPass

def Operand.value (symbols : String → Word) : Operand → Word
  | .number value => value
  | .symbol name => symbols name

def Statement.instruction? (symbols : String → Word) : Statement → Option Instruction
  | .label _ => none
  | .unclosed _ => none
  | .address operand => some (.address (operand.value symbols))
  | .compute destination computation jump => some (.compute destination computation jump)

def instructions (symbols : String → Word) (statements : List Statement) : List Instruction :=
  statements.filterMap (Statement.instruction? symbols)

@[simp] theorem instructions_append (symbols : String → Word) (first second : List Statement) :
    instructions symbols (first ++ second) =
      instructions symbols first ++ instructions symbols second := List.filterMap_append

theorem instructions_cons (symbols : String → Word) (statement : Statement)
    (rest : List Statement) :
    instructions symbols (statement :: rest) =
      instructions symbols [statement] ++ instructions symbols rest := by
  rw [← instructions_append]
  rfl

/-- All statements but an unclosed declaration have as many instructions as addresses. -/
def Statement.isClosed : Statement → Bool
  | .unclosed _ => false
  | _ => true

theorem Statement.Legal.isClosed {statement : Statement} (legal : statement.Legal) :
    statement.isClosed = true := by
  cases statement with
  | label | address | compute => rfl
  | unclosed => exact legal.elim

def unclosed (statements : List Statement) : Nat :=
  statements.countP fun statement => !statement.isClosed

theorem unclosed_eq_zero_iff {statements : List Statement} :
    unclosed statements = 0 ↔ ∀ statement ∈ statements, statement.isClosed = true := by
  simp [unclosed]

/-- The addresses that statements take up are those of their instructions, and one more for each
unclosed declaration. -/
theorem size_eq_length_add (symbols : String → Word) (statements : List Statement) :
    size statements = (instructions symbols statements).length + unclosed statements := by
  induction statements with
  | nil => rfl
  | cons statement rest ih =>
    have parts : unclosed (statement :: rest) = unclosed [statement] + unclosed rest := by
      rw [unclosed, ← List.singleton_append, List.countP_append]
      rfl
    have one : size [statement] =
        (instructions symbols [statement]).length + unclosed [statement] := by
      cases statement <;> rfl
    rw [instructions_cons, size_cons, List.length_append, parts, ih, one]
    omega

theorem length_instructions (symbols : String → Word) {statements : List Statement}
    (closed : ∀ statement ∈ statements, statement.isClosed = true) :
    (instructions symbols statements).length = size statements := by
  rw [size_eq_length_add symbols, unclosed_eq_zero_iff.mpr closed, Nat.add_zero]

/-- The value of a symbol of a table, zero if it has none. -/
def valueIn (symbols : SymbolTable) (name : String) : Word := symbols[name]?.getD 0

theorem valueIn_of_getElem? {symbols : SymbolTable} {name : String} {value : Word}
    (known : symbols[name]? = some value) : valueIn symbols name = value := by
  rw [valueIn, known]
  rfl

/-- Every symbol of the first table has the same value in the second. -/
def Extends (first second : SymbolTable) : Prop :=
  ∀ (name : String) (value : Word), first[name]? = some value → second[name]? = some value

namespace CodePass

/-- The symbol of a statement, if it has one, is known. -/
def Known (symbols : SymbolTable) (statement : Statement) : Prop :=
  ∀ name : String, statement.reference? = some name → ∃ value : Word, symbols[name]? = some value

theorem instruction?_of_extends {first second : SymbolTable} {statement : Statement}
    (extended : Extends first second) (known : Known first statement) :
    statement.instruction? (valueIn second) = statement.instruction? (valueIn first) := by
  cases statement with
  | label | unclosed | compute => rfl
  | address operand =>
    cases operand with
    | number => rfl
    | symbol name =>
      obtain ⟨value, found⟩ := known name rfl
      simp only [Statement.instruction?, Operand.value, valueIn_of_getElem? found,
        valueIn_of_getElem? (extended name value found)]

theorem visit_ok {pass after : CodePass} {statement : Statement}
    (visited : pass.visit statement = .ok after) :
    Extends pass.symbols after.symbols ∧ Known after.symbols statement ∧
      after.code.toList =
        pass.code.toList ++ instructions (valueIn after.symbols) [statement] := by
  cases statement with
  | label name | unclosed text =>
    cases visited
    exact ⟨fun _ _ found => found, nofun, (List.append_nil _).symm⟩
  | compute destination computation jump =>
    cases visited
    exact ⟨fun _ _ found => found, nofun, Array.toList_push⟩
  | address operand =>
    cases operand with
    | number value =>
      cases visited
      exact ⟨fun _ _ found => found, nofun, Array.toList_push⟩
    | symbol name =>
      simp only [visit] at visited
      split at visited
      · rename_i value found
        cases visited
        refine ⟨fun _ _ found => found, ?_, ?_⟩
        · rintro _ ⟨⟩
          exact ⟨value, found⟩
        · simp [push, instructions, Statement.instruction?, Operand.value,
            valueIn_of_getElem? found]
      · rename_i unknown
        split at visited
        · cases visited
          have found : (pass.symbols.insert name (BitVec.ofNat 16 pass.next))[name]? =
              some (BitVec.ofNat 16 pass.next) := by
            rw [getElem?_insert, if_pos rfl]
          refine ⟨?_, ?_, ?_⟩
          · intro other value known
            have different : name ≠ other := by
              rintro rfl
              rw [unknown] at known
              cases known
            rw [getElem?_insert, if_neg different, known]
          · rintro _ ⟨⟩
            exact ⟨_, found⟩
          · simp [instructions, Statement.instruction?, Operand.value,
              valueIn_of_getElem? found]
        · cases visited

/-- Every instruction is its statement under the symbols that the whole pass ends with. -/
theorem run_ok {pass after : CodePass} {statements : List Statement}
    (run : statements.foldlM visit pass = .ok after) :
    Extends pass.symbols after.symbols ∧
      after.code.toList = pass.code.toList ++ instructions (valueIn after.symbols) statements := by
  induction statements generalizing pass with
  | nil => cases run; exact ⟨fun _ _ found => found, (List.append_nil _).symm⟩
  | cons statement rest ih =>
    rw [List.foldlM_cons] at run
    obtain ⟨middle, first, last⟩ := bind_ok run
    obtain ⟨extended, known, code⟩ := visit_ok first
    obtain ⟨further, total⟩ := ih last
    refine ⟨fun name value found => further name value (extended name value found), ?_⟩
    have same : instructions (valueIn after.symbols) [statement] =
        instructions (valueIn middle.symbols) [statement] := by
      simp only [instructions, List.filterMap_cons, List.filterMap_nil,
        instruction?_of_extends further known]
    rw [total, code, instructions_cons _ statement rest, List.append_assoc, same]

theorem run_known {pass after : CodePass} {statements : List Statement} {name : String}
    (run : statements.foldlM visit pass = .ok after) (member : name ∈ references statements) :
    ∃ value : Word, after.symbols[name]? = some value := by
  induction statements generalizing pass with
  | nil => cases member
  | cons statement rest ih =>
    rw [List.foldlM_cons] at run
    obtain ⟨middle, first, last⟩ := bind_ok run
    obtain ⟨other, inside, refers⟩ := List.mem_filterMap.mp member
    rcases List.mem_cons.mp inside with rfl | inside
    · obtain ⟨value, found⟩ := (visit_ok first).2.1 name refers
      exact ⟨value, (run_ok last).1 name value found⟩
    · exact ih last (List.mem_filterMap.mpr ⟨other, inside, refers⟩)

/-- A symbol that the second pass adds is a variable: its address is not a reserved one. -/
theorem visit_variable {pass after : CodePass} {statement : Statement}
    (visited : pass.visit statement = .ok after) (next : firstVariable ≤ pass.next) :
    firstVariable ≤ after.next ∧ ∀ (name : String) (value : Word),
      after.symbols[name]? = some value →
        pass.symbols[name]? = some value ∨ firstVariable ≤ value.toNat := by
  cases statement with
  | label | unclosed | compute =>
    cases visited
    exact ⟨next, fun _ _ found => .inl found⟩
  | address operand =>
    cases operand with
    | number =>
      cases visited
      exact ⟨next, fun _ _ found => .inl found⟩
    | symbol other =>
      simp only [visit] at visited
      split at visited
      · cases visited
        exact ⟨next, fun _ _ found => .inl found⟩
      · split at visited
        · rename_i room
          cases visited
          refine ⟨Nat.le_succ_of_le next, fun name value found => ?_⟩
          rw [getElem?_insert] at found
          split at found
          · cases found
            simp only [maxConstant, firstVariable, BitVec.toNat_ofNat] at room next ⊢
            omega
          · exact .inl found
        · cases visited

theorem run_variable {pass after : CodePass} {statements : List Statement} {name : String}
    {value : Word} (run : statements.foldlM visit pass = .ok after)
    (next : firstVariable ≤ pass.next) (found : after.symbols[name]? = some value) :
    pass.symbols[name]? = some value ∨ firstVariable ≤ value.toNat := by
  induction statements generalizing pass with
  | nil =>
    cases run
    exact .inl found
  | cons statement rest ih =>
    rw [List.foldlM_cons] at run
    obtain ⟨middle, first, last⟩ := bind_ok run
    obtain ⟨room, added⟩ := visit_variable first next
    rcases ih last room with known | variable_
    · exact added name value known
    · exact .inr variable_

/-- The second pass succeeds as long as the variables fit. -/
theorem run_succeeds {pass : CodePass} {statements : List Statement}
    (fits : pass.next + (references statements).length ≤ maxConstant) :
    ∃ after, statements.foldlM visit pass = .ok after := by
  induction statements generalizing pass with
  | nil => exact ⟨pass, rfl⟩
  | cons statement rest ih =>
    have visited : ∃ middle, pass.visit statement = .ok middle ∧
        middle.next + (references rest).length ≤ maxConstant := by
      cases statement with
      | label | unclosed | compute => exact ⟨_, rfl, fits⟩
      | address operand =>
        cases operand with
        | number => exact ⟨_, rfl, fits⟩
        | symbol name =>
          have room : pass.next + (references rest).length + 1 ≤ maxConstant := by
            simpa [references, Statement.reference?, Nat.add_assoc] using fits
          simp only [visit]
          split
          · exact ⟨_, rfl, by simp only [push]; omega⟩
          · rw [if_pos (by omega)]
            exact ⟨_, rfl, by simp only; omega⟩
    obtain ⟨middle, visited, room⟩ := visited
    obtain ⟨after, run⟩ := ih room
    refine ⟨after, ?_⟩
    rw [List.foldlM_cons, visited]
    exact run

end CodePass

def Program.value (program : Program) (name : String) : Word := valueIn program.symbols name

theorem assemble_ok {statements : List Statement} {program : Program}
    (assembled : assemble statements = .ok program) :
    ∃ pass, statements.foldlM LabelPass.visit LabelPass.start = .ok pass ∧
      Extends pass.symbols program.symbols ∧
      program.code.toList = instructions program.value statements := by
  unfold assemble at assembled
  obtain ⟨labelled, first, rest⟩ := bind_ok assembled
  obtain ⟨coded, second, result⟩ := bind_ok rest
  cases result
  obtain ⟨extended, code⟩ := CodePass.run_ok second
  exact ⟨labelled, first, extended, code⟩

theorem size_of_assemble {statements : List Statement} {program : Program}
    (assembled : assemble statements = .ok program) : size statements ≤ maxConstant := by
  obtain ⟨pass, run, -⟩ := assemble_ok assembled
  obtain ⟨next, bound⟩ := LabelPass.run_next run
  simp only [LabelPass.start] at next bound
  omega

theorem getElem?_label {before later : List Statement} {name : String} {program : Program}
    (assembled : assemble (before ++ .label name :: later) = .ok program)
    (last : name ∉ labels later) :
    program.symbols[name]? = some (BitVec.ofNat 16 (size before)) := by
  obtain ⟨pass, run, extended, -⟩ := assemble_ok assembled
  have declared := LabelPass.run_declared run last
  simp only [LabelPass.start, Nat.zero_add] at declared
  exact extended name _ declared

theorem value_label {before later : List Statement} {name : String} {program : Program}
    (assembled : assemble (before ++ .label name :: later) = .ok program)
    (last : name ∉ labels later) :
    program.value name = BitVec.ofNat 16 (size before) :=
  valueIn_of_getElem? (getElem?_label assembled last)

theorem symbol_label {before later : List Statement} {name : String} {program : Program}
    (assembled : assemble (before ++ .label name :: later) = .ok program)
    (last : name ∉ labels later) : program.symbol name = .ok (program.value name) := by
  have found := getElem?_label assembled last
  simp only [Program.symbol, Program.value, valueIn_of_getElem? found, found]

/-- The last declaration of a symbol gives it the address that it stands at. -/
theorem toNat_value_label {before later : List Statement} {name : String} {program : Program}
    (assembled : assemble (before ++ .label name :: later) = .ok program)
    (last : name ∉ labels later) : (program.value name).toNat = size before := by
  have bound := size_of_assemble assembled
  rw [size_append] at bound
  rw [value_label assembled last, BitVec.toNat_ofNat]
  apply Nat.mod_eq_of_lt
  simp only [maxConstant] at bound
  omega

/-- Every declaration in statements that start at an address has the address it stands at. -/
def Resolved (symbols : String → Word) (address : Nat) (statements : List Statement) : Prop :=
  ∀ (head : List Statement) (name : String) (tail : List Statement),
    statements = head ++ .label name :: tail → (symbols name).toNat = address + size head

theorem Resolved.left {symbols : String → Word} {address : Nat} {first second : List Statement}
    (resolved : Resolved symbols address (first ++ second)) : Resolved symbols address first := by
  rintro head name tail rfl
  exact resolved head name (tail ++ second) (by simp)

theorem Resolved.right {symbols : String → Word} {address : Nat} {first second : List Statement}
    (resolved : Resolved symbols address (first ++ second)) :
    Resolved symbols (address + size first) second := by
  rintro head name tail rfl
  rw [resolved (first ++ head) name tail (by simp), size_append, Nat.add_assoc]

theorem resolved_of_assemble {statements : List Statement} {program : Program}
    (assembled : assemble statements = .ok program) (unique : (labels statements).Nodup) :
    Resolved program.value 0 statements := by
  rintro head name tail rfl
  have last : name ∉ labels tail := by
    rw [labels_append] at unique
    exact (List.nodup_cons.mp (List.nodup_append.mp unique).2.1).1
  rw [toNat_value_label assembled last, Nat.zero_add]

theorem value_predefined {statements : List Statement} {name : String} {value : Word}
    {program : Program} (assembled : assemble statements = .ok program)
    (member : (name, value) ∈ predefined) (free : name ∉ labels statements) :
    program.value name = value := by
  obtain ⟨pass, run, extended, -⟩ := assemble_ok assembled
  have initial : LabelPass.start.symbols[name]? = some value := by
    apply Std.TreeMap.getElem?_ofList_of_mem Std.ReflCmp.compare_self _ member
    decide
  rw [← LabelPass.run_undeclared run free] at initial
  exact valueIn_of_getElem? (extended name value initial)

theorem symbol_of_mem_references {statements : List Statement} {name : String} {program : Program}
    (assembled : assemble statements = .ok program) (member : name ∈ references statements) :
    program.symbol name = .ok (program.value name) := by
  unfold assemble at assembled
  obtain ⟨labelled, first, rest⟩ := bind_ok assembled
  obtain ⟨coded, second, result⟩ := bind_ok rest
  cases result
  obtain ⟨value, found⟩ := CodePass.run_known second member
  simp only [Program.symbol, Program.value, valueIn_of_getElem? found, found]

/-- A symbol that is neither declared nor predefined has a cell behind the reserved ones. -/
theorem value_variable {statements : List Statement} {name : String} {program : Program}
    (assembled : assemble statements = .ok program) (member : name ∈ references statements)
    (undeclared : name ∉ labels statements) (unknown : name ∉ predefined.map Prod.fst) :
    firstVariable ≤ (program.value name).toNat := by
  unfold assemble at assembled
  obtain ⟨labelled, first, rest⟩ := bind_ok assembled
  obtain ⟨coded, second, result⟩ := bind_ok rest
  cases result
  have absent : LabelPass.start.symbols[name]? = none := by
    apply Std.TreeMap.getElem?_ofList_of_contains_eq_false
    simpa using unknown
  obtain ⟨value, found⟩ := CodePass.run_known second member
  rw [Program.value, valueIn_of_getElem? found]
  rcases CodePass.run_variable second (Nat.le_refl _) found with known | reserved
  · rw [LabelPass.run_undeclared first undeclared, absent] at known
    cases known
  · exact reserved

theorem assemble_succeeds {statements : List Statement} (fits : size statements ≤ maxConstant)
    (room : firstVariable + (references statements).length ≤ maxConstant) :
    ∃ program, assemble statements = .ok program := by
  have start : LabelPass.start.next + size statements ≤ maxConstant := by
    simpa [LabelPass.start] using fits
  obtain ⟨labelled, first⟩ := LabelPass.run_succeeds start
  obtain ⟨coded, second⟩ := @CodePass.run_succeeds { symbols := labelled.symbols } _ room
  refine ⟨⟨coded.code, coded.symbols⟩, ?_⟩
  unfold assemble
  rw [first]
  change (statements.foldlM CodePass.visit { symbols := labelled.symbols } >>= _) = _
  rw [second]
  rfl

end HackStack.Assembly
