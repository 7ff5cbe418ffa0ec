import HackStack.Proofs.Compiler.Simulation

/-! Stack commands to the last cell. The block of an arithmetic command, a push or a pop changes the
cells that the command names, the stack pointer, and the scratch cell if it pops to a based cell.
It does so in every program that contains it, whatever else stands there. -/
namespace HackStack
open Assembly Machine Reference

namespace Memory

/-- Gives cells new values. Where a cell comes twice, the first value counts. -/
def update (memory : Memory) (changes : List (Word × Word)) : Memory :=
  changes.foldr (fun (cell, value) memory => memory.write cell value) memory

theorem read_update (memory : Memory) (changes : List (Word × Word)) (cell : Word) :
    (memory.update changes).read cell = (changes.lookup cell).getD (memory.read cell) := by
  induction changes with
  | nil => rfl
  | cons change rest ih =>
    obtain ⟨other, value⟩ := change
    have first : memory.update ((other, value) :: rest) =
        (memory.update rest).write other value := rfl
    rw [first, read_write, List.lookup_cons]
    by_cases same : cell = other
    · simp [same]
    · simp [same, beq_eq_false_iff_ne.mpr same, ih]

variable {memory : Memory} {pointer : Word}

theorem push_eq_update (points : memory.read Cell.stack = pointer) (low : 258 ≤ pointer.toNat)
    (value : Word) :
    memory.push value = memory.update [(pointer, value), (Cell.stack, pointer + 1)] := by
  subst points
  refine push_eq ?_ value
  simp only [Cell.stack] at low ⊢
  bv_omega

theorem popped_eq_read (points : memory.read Cell.stack = pointer) (low : 258 ≤ pointer.toNat) :
    memory.popped = memory.read (pointer - 1) := by
  subst points
  refine popped_eq ?_
  simp only [topCell, Cell.stack] at low ⊢
  bv_omega

theorem popInto_eq_update (points : memory.read Cell.stack = pointer) (low : 258 ≤ pointer.toNat)
    (target : Word) :
    memory.popInto target =
      memory.update [(target, memory.read (pointer - 1)), (Cell.stack, pointer - 1)] := by
  simp only [popInto, popped_eq_read points low, drop, points]
  rfl

theorem combine_eq_update (points : memory.read Cell.stack = pointer) (low : 258 ≤ pointer.toNat)
    (operate : Word → Word → Word) :
    memory.combine operate =
      memory.update [(pointer - 2, operate (memory.read (pointer - 2)) (memory.read (pointer - 1))),
        (Cell.stack, pointer - 1)] := by
  have under : memory.drop.topCell = pointer - 2 := by
    rw [topCell, read_stack_drop, points]
    bv_omega
  have second : memory.drop.read (pointer - 2) = memory.read (pointer - 2) := by
    refine read_write_of_ne _ _ ?_
    simp only [Cell.stack]
    bv_omega
  simp only [combine, rewrite, under, second, popped_eq_read points low]
  simp only [drop, points]
  rfl

end Memory

/-- What an operation puts into which cells. A comparison looks at the sign of the difference,
modulo `2 ^ 16`. -/
def Operation.changes (memory : Memory) (operation : Operation) : List (Word × Word) :=
  let pointer := memory.read Cell.stack
  let top := memory.read (pointer - 1)
  let second := memory.read (pointer - 2)
  match operation with
  | .neg => [(pointer - 1, - top)]
  | .not => [(pointer - 1, ~~~ top)]
  | .add => [(pointer - 2, second + top), (Cell.stack, pointer - 1)]
  | .sub => [(pointer - 2, second - top), (Cell.stack, pointer - 1)]
  | .and => [(pointer - 2, second &&& top), (Cell.stack, pointer - 1)]
  | .or => [(pointer - 2, second ||| top), (Cell.stack, pointer - 1)]
  | .eq => [(pointer - 2, truth ((second - top).toInt = 0)), (Cell.stack, pointer - 1)]
  | .gt => [(pointer - 2, truth (0 < (second - top).toInt)), (Cell.stack, pointer - 1)]
  | .lt => [(pointer - 2, truth ((second - top).toInt < 0)), (Cell.stack, pointer - 1)]

theorem Operation.apply_eq_update {memory : Memory} (operation : Operation)
    (low : 258 ≤ (memory.read Cell.stack).toNat) :
    operation.apply memory = memory.update (operation.changes memory) := by
  cases operation with
  | not | neg => rfl
  | add | sub | and | or => exact Memory.combine_eq_update rfl low _
  | eq | gt | lt =>
    rw [apply, Memory.combine_eq_update rfl low]
    rfl

namespace Command

/-- A command that works on the stack and does not move control. -/
def isStack : Command → Bool
  | .arithmetic _ | .push .. | .pop .. => true
  | _ => false

/-- What a stack command puts into which cells; what it stores last comes first. A pop to a based
cell also leaves the address of the cell in a scratch cell. -/
def changes (symbols : String → Word) (generator : Generator) (memory : Memory) :
    Command → List (Word × Word)
  | .arithmetic mnemonic =>
    ((Operation.ofMnemonic? mnemonic).map (Operation.changes memory)).getD []
  | .push segment index =>
    let pointer := memory.read Cell.stack
    ((value? symbols generator memory segment index).map fun value =>
      [(pointer, value), (Cell.stack, pointer + 1)]).getD []
  | .pop segment index =>
    let pointer := memory.read Cell.stack
    ((cell? symbols generator memory index segment).map fun cell =>
      [(cell, memory.read (pointer - 1)), (Cell.stack, pointer - 1)] ++
        if (base? segment).isSome then [(Cell.frame, cell)] else []).getD []
  | _ => []

end Command

/-- The symbols of code that starts at an address have the values that it is written for: those that
every program knows have their own, and labels have the addresses at which they stand. -/
structure Intended (symbols : String → Word) (first : Nat) (code : List Statement) : Prop where
  registers : ∀ name value, (name, value) ∈ predefined → name ∈ references code →
    symbols name = value
  labels : Resolved symbols first code

theorem Machine.holds_congr {code : Array Instruction} {first second : String → Word}
    {address : Nat} {statements : List Statement}
    (same : ∀ name ∈ references statements, first name = second name)
    (held : Holds code first address statements) : Holds code second address statements := by
  induction statements generalizing address with
  | nil => trivial
  | cons statement rest ih =>
    have tail : ∀ name ∈ references rest, first name = second name := by
      intro name member
      obtain ⟨other, inside, refers⟩ := List.mem_filterMap.mp member
      exact same name (List.mem_filterMap.mpr ⟨other, List.mem_cons_of_mem _ inside, refers⟩)
    have here : statement.instruction? first = statement.instruction? second := by
      cases statement with
      | label | unclosed | compute => rfl
      | address operand =>
        cases operand with
        | number => rfl
        | symbol name =>
          simp only [Statement.instruction?, Operand.value]
          rw [same name (List.mem_filterMap.mpr ⟨_, List.mem_cons_self, rfl⟩)]
    refine ⟨fun instruction found => ?_, ih tail held.2⟩
    rw [← here] at found
    exact held.1 instruction found

/-- Symbols that code refers to can be kept while all others get their own values. -/
theorem Intended.standard {symbols : String → Word} {first : Nat} {code : List Statement}
    (intended : Intended symbols first code) (declared : Assembly.labels code ⊆ references code) :
    ∃ patched, Standard patched ∧ Resolved patched first code ∧
      ∀ name ∈ references code, symbols name = patched name := by
  let patched : String → Word := fun name =>
    if name ∈ references code then symbols name else (predefined.lookup name).getD 0
  have known : ∀ entry ∈ predefined, predefined.lookup entry.1 = some entry.2 := by decide
  have kept : ∀ name ∈ references code, symbols name = patched name :=
    fun name member => (if_pos member).symm
  refine ⟨patched, fun name value member => ?_, ?_, kept⟩
  · by_cases used : name ∈ references code
    · rw [← kept name used, intended.registers name value member used]
    · simp only [patched, if_neg used, known _ member, Option.getD_some]
  · rintro head name tail rfl
    have used : name ∈ references (head ++ .label name :: tail) := by
      refine declared ?_
      rw [mem_labels]
      simp
    rw [← kept name used]
    exact intended.labels head name tail rfl

theorem note_place {symbols : String → Word} {generator : Generator} {segment : Segment}
    {index : Word} {place : Code.Place} (found : generator.place segment index = .ok place)
    (memory : Memory) :
    place.note symbols memory = if (base? segment).isSome then
      memory.write Cell.frame (place.cell symbols memory) else memory := by
  cases segment with
  | constant => cases found
  | locals | arguments | this | that | temp | pointer =>
    obtain ⟨offset, -, result⟩ := bind_ok found
    cases result
    rfl
  | static =>
    cases found
    rfl

/-- The code of a stack command is that of an operation, of a constant or of a place. -/
inductive StackCode (generator : Generator) : Command → List Statement → Prop
  | operation {mnemonic : String} {operation : Operation}
      (found : Operation.ofMnemonic? mnemonic = some operation) :
      StackCode generator (.arithmetic mnemonic) (Code.operation generator.comparisons operation)
  | constant (index : Word) :
      StackCode generator (.push .constant index) (Code.pushConstant index.toNat)
  | push {segment : Segment} {index : Word} {place : Code.Place}
      (placed : generator.place segment index = .ok place) :
      StackCode generator (.push segment index) (Code.pushFrom place)
  | pop {segment : Segment} {index : Word} {place : Code.Place}
      (placed : generator.place segment index = .ok place) :
      StackCode generator (.pop segment index) (Code.popTo place)

theorem stackCode_of_ok {generator : Generator} {command : Command} {block : List Statement}
    (stack : command.isStack = true) (generated : generator.code command = .ok block) :
    StackCode generator command block := by
  cases command with
  | arithmetic mnemonic =>
    simp only [Generator.code] at generated
    split at generated
    · cases generated
      exact .operation ‹_›
    · cases generated
  | push segment index =>
    cases segment with
    | constant =>
      obtain ⟨value, checked, result⟩ := bind_ok generated
      obtain ⟨rfl, -⟩ := Generator.checked_ok checked
      cases result
      exact .constant index
    | locals | static | arguments | this | that | pointer | temp =>
      obtain ⟨place, placed, result⟩ := bind_ok generated
      cases result
      exact .push placed
  | pop segment index =>
    obtain ⟨place, placed, result⟩ := bind_ok generated
    cases result
    exact .pop placed
  | label | goto | ifGoto | function | call | ret => cases stack

theorem Standard.value? {symbols : String → Word} (standard : Standard symbols)
    {generator : Generator} {segment : Segment} {index : Word} {place : Code.Place}
    (placed : generator.place segment index = .ok place) (memory : Memory) :
    value? symbols generator memory segment index =
      some (memory.read (place.cell symbols memory)) := by
  have cell := standard.cell? placed memory
  cases segment with
  | constant => cases placed
  | locals | static | arguments | this | that | pointer | temp =>
    simp only [Reference.value?, cell, Option.map_some]

namespace StackCode

variable {code : Array Instruction} {symbols : String → Word} {first : Nat} {before : Memory}
  {generator : Generator} {command : Command} {block : List Statement}

/-- With symbols that have their own values, the code of a stack command changes what the command
says. -/
theorem leaves (stack : StackCode generator command block) (standard : Standard symbols)
    (held : Holds code symbols first block) (resolved : Resolved symbols first block)
    (low : 258 ≤ (before.read Cell.stack).toNat) :
    Leaves code first (first + size block) before
      (before.update (command.changes symbols generator before)) := by
  have fixed := standard.fixed
  have free : before.read Cell.stack ≠ Cell.stack := by
    simp only [Cell.stack] at low ⊢
    bv_omega
  cases stack with
  | operation found =>
    simp only [Command.changes, found, Option.map_some, Option.getD_some]
    rw [← Operation.apply_eq_update _ low]
    exact Code.leaves_operation held fixed resolved
  | constant index =>
    have leaves := Code.leaves_pushConstant held fixed.stack free
    rw [Memory.push_eq_update rfl low, BitVec.ofNat_toNat, BitVec.setWidth_eq] at leaves
    exact leaves
  | push placed =>
    simp only [Command.changes, standard.value? placed before, Option.map_some, Option.getD_some]
    rw [← Memory.push_eq_update rfl low]
    exact Code.leaves_pushFrom held fixed free
  | @pop segment index place placed =>
    have leaves := @Code.leaves_popTo _ _ _ before _ held fixed
    simp only [Command.changes, standard.cell? placed before, Option.map_some, Option.getD_some]
    rw [note_place placed] at leaves
    by_cases based : (base? segment).isSome = true
    · rw [if_pos based] at leaves ⊢
      -- the scratch cell is neither the stack pointer nor the top of the stack
      have points : (before.write Cell.frame (place.cell symbols before)).read Cell.stack =
          before.read Cell.stack := Memory.read_write_of_ne _ _ (by decide)
      have top : before.read Cell.stack - 1 ≠ Cell.frame := by
        simp only [Cell.frame]
        bv_omega
      rw [Memory.popInto_eq_update points low, Memory.read_write_of_ne _ _ top] at leaves
      exact leaves
    · rw [if_neg based] at leaves ⊢
      rw [Memory.popInto_eq_update rfl low] at leaves
      exact leaves

/-- The code of a stack command jumps to each label that it declares. -/
theorem labels_subset (stack : StackCode generator command block) :
    labels block ⊆ references block := by
  cases stack with
  | @operation _ operation _ =>
    cases operation with
    | not | neg | add | sub | and | or => exact List.nil_subset _
    | eq | gt | lt => simp [Code.operation, Code.references_compare, Code.labels_compare]
  | constant => exact List.nil_subset _
  | @push _ _ place _ => cases place <;> exact List.nil_subset _
  | @pop _ _ place _ => cases place <;> exact List.nil_subset _

theorem changes_congr {other : String → Word} (stack : StackCode generator command block)
    (same : ∀ name ∈ references block, symbols name = other name) :
    command.changes symbols generator before = command.changes other generator before := by
  cases stack with
  | operation | constant => rfl
  | @push segment index place placed =>
    cases segment with
    | static =>
      cases placed
      have equal := same (generator.staticSymbol index) List.mem_cons_self
      simp only [Command.changes, value?, cell?, equal]
    | constant | locals | arguments | this | that | pointer | temp => rfl
  | @pop segment index place placed =>
    cases segment with
    | static =>
      cases placed
      have equal := same (generator.staticSymbol index)
        (List.mem_cons_of_mem _ List.mem_cons_self)
      simp only [Command.changes, cell?, equal]
    | constant | locals | arguments | this | that | pointer | temp => rfl

end StackCode

theorem tidy_of_stack {generator : Generator} {command : Command} {code : List Statement}
    (module : isSymbol generator.module = true) (stack : command.isStack = true)
    (generated : generator.code command = .ok code) : Tidy code := by
  let top : Generator := { generator with scope := .module generator.module }
  have named : top.Named := ⟨module, module⟩
  have same : top.code command = .ok code := by
    rw [← generated]
    cases command with
    | arithmetic | push | pop => rfl
    | label | goto | ifGoto | function | call | ret => cases stack
  refine named.code ?_ same
  cases command with
  | arithmetic | push | pop => trivial
  | label | goto | ifGoto | function | call | ret => cases stack

theorem legal_of_stack {generator : Generator} {command : Command} {code : List Statement}
    (module : isSymbol generator.module = true) (stack : command.isStack = true)
    (generated : generator.code command = .ok code) :
    (⟨command.text, code⟩ : Block).Legal := by
  refine ⟨newline_text ?_ ⟨code, generated⟩, (tidy_of_stack module stack generated).legal⟩
  cases command with
  | arithmetic | push | pop => trivial
  | label | goto | ifGoto | function | call | ret => cases stack

/-- The block of an arithmetic command, a push or a pop does exactly what the command means. In any
program that contains the block, with symbols that have the values it is written for, and from any
machine with two values on the stack, execution goes from the first instruction of the block to the
one behind it. Then the cells that the command changes have their new values, and every other cell
is as it was. -/
theorem stack_block_changes_exactly {generator next : Generator} {command : Command}
    {block : Block} (module : isSymbol generator.module = true) (stack : command.isStack = true)
    (generated : generator.generate command = .ok (next, block)) {front back : String}
    (whole : front = "" ∨ front.toList.getLast? = some '\n') {program : Program}
    (loaded : Program.load (front ++ block.text ++ back) = .ok program) {first : Nat}
    (behind : first = (instructions program.value (Statement.ofSource front)).length)
    (intended : Intended program.value first block.code) (machine : Machine)
    (start : machine.counter = first) (low : 258 ≤ (machine.memory.read Cell.stack).toNat) :
    ∃ result, Executes program.code first (first + size block.code) machine result ∧
      result.counter = first + size block.code ∧
      ∀ cell, result.memory.read cell =
        ((command.changes program.value generator machine.memory).lookup cell).getD
          (machine.memory.read cell) := by
  obtain ⟨code, made, result⟩ := bind_ok generated
  cases result
  have shape := stackCode_of_ok stack made
  have legal := legal_of_stack module stack made
  rw [Program.load, ofSource_around legal.readable back whole] at loaded
  obtain ⟨-, -, -, assembled⟩ := assemble_ok loaded
  have held : Holds program.code program.value first code := by
    rw [instructions_append, instructions_append] at assembled
    rw [behind]
    exact holds_of_code (fun statement member => (legal.code statement member).isClosed) assembled
  obtain ⟨patched, standard, resolved, kept⟩ := intended.standard shape.labels_subset
  obtain ⟨result, executed, counter, memory⟩ :=
    shape.leaves standard (holds_congr kept held) resolved low machine start rfl
  refine ⟨result, executed, counter, fun cell => ?_⟩
  rw [memory, Memory.read_update, shape.changes_congr kept]

/-- A machine in front of a pop to `local 2`. The locals start two cells below the first, so the
popped value goes to the stack pointer. -/
def wrapping : Machine where
  memory := ((Memory.zero.write Cell.stack 258).write Cell.locals (-2)).write 257 99
  counter := 2

def popWrapping : Block :=
  ⟨"pop local 2", Code.popTo (.based "LCL" 2)⟩

theorem intended_popWrapping {program : Program}
    (loaded : Program.load ("@5\nD=A\n" ++ popWrapping.text ++ "") = .ok program) :
    Intended program.value 2 popWrapping.code := by
  constructor
  · intro name value member _
    refine value_predefined loaded member ?_
    have none : labels (Statement.ofSource ("@5\nD=A\n" ++ popWrapping.text ++ "")) = [] := by
      decide +kernel
    rw [none]
    exact List.not_mem_nil
  · intro head name tail equal
    have member : name ∈ labels popWrapping.code := by
      rw [mem_labels, equal]
      simp
    cases member

/-- The popped value wins over the decremented stack pointer, whose cell it goes to. -/
theorem stack_block_changes_exactly_wrapping : ∃ program result,
    Program.load ("@5\nD=A\n" ++ popWrapping.text ++ "") = .ok program ∧
      Executes program.code 2 14 wrapping result ∧ result.memory.read Cell.stack = 99 ∧
      result.memory.read Cell.frame = 0 ∧ result.memory.read 257 = 99 := by
  obtain ⟨program, loaded⟩ : ∃ program,
      Program.load ("@5\nD=A\n" ++ popWrapping.text ++ "") = .ok program :=
    assemble_succeeds (by decide +kernel) (by decide +kernel)
  have behind : 2 = (instructions program.value (Statement.ofSource "@5\nD=A\n")).length := by
    have read : Statement.ofSource "@5\nD=A\n" =
        [.number 5, .store .onlyD (.copy .a)] := by decide +kernel
    rw [read]
    rfl
  obtain ⟨result, executed, -, cells⟩ := @stack_block_changes_exactly
    { module := "Main", scope := .module "Main" } _ (.pop .locals 2) popWrapping (by decide) rfl rfl
    _ _ (.inr (by decide)) _ loaded _ behind (intended_popWrapping loaded) wrapping rfl
    (by simp [wrapping, Memory.read_write, Cell.stack, Cell.locals])
  have changes : (Command.pop .locals 2).changes program.value
      { module := "Main", scope := .module "Main" } wrapping.memory =
        [(Cell.stack, 99), (Cell.stack, 257), (Cell.frame, Cell.stack)] := by
    simp [Command.changes, cell?, base?, wrapping, Memory.read_write, Cell.stack, Cell.locals,
      Cell.frame]
  simp only [changes] at cells
  refine ⟨program, result, loaded, executed, cells Cell.stack, cells Cell.frame, ?_⟩
  rw [cells 257]
  exact Memory.read_write_self ..

end HackStack
