import HackStack.Proofs.Compiler.Scoping
import HackStack.Proofs.Compiler.StraightLine
import HackStack.Proofs.Reference.Frames

/-! The entry of a function. Its block pushes as many zeros as the function has locals and touches
no other cell, in every program that leaves the symbol of the stack pointer alone. Labels and jumps
that follow are those of the function. -/
namespace HackStack
open Assembly Machine

namespace Memory

/-- Zeros that are pushed fill the cells from the stack pointer on, and nothing else changes. -/
theorem read_pushZeros {memory : Memory} {pointer : Word} {count : Nat}
    (points : memory.read Cell.stack = pointer) (positive : 0 < pointer.toNat)
    (fits : pointer.toNat + count < 65536) (cell : Word) :
    (memory.pushZeros count).read cell =
      if cell = Cell.stack then pointer + BitVec.ofNat 16 count
      else if pointer.toNat ≤ cell.toNat ∧ cell.toNat < pointer.toNat + count then 0
      else memory.read cell := by
  induction count generalizing cell with
  | zero =>
    have none : ¬ (pointer.toNat ≤ cell.toNat ∧ cell.toNat < pointer.toNat + 0) := by omega
    rw [pushZeros, if_neg none]
    split
    · rename_i same
      rw [same, points]
      exact (BitVec.add_zero _).symm
    · rfl
  | succ count ih =>
    have before := ih (by omega)
    have top : (memory.pushZeros count).read Cell.stack = pointer + BitVec.ofNat 16 count := by
      rw [before, if_pos rfl]
    have free : pointer + BitVec.ofNat 16 count ≠ Cell.stack := by
      simp only [Cell.stack]
      bv_omega
    have next : pointer + BitVec.ofNat 16 count + 1 = pointer + BitVec.ofNat 16 (count + 1) := by
      rw [BitVec.add_assoc, BitVec.ofNat_add]
      rfl
    have here : cell = pointer + BitVec.ofNat 16 count ↔
        cell.toNat = pointer.toNat + count := by
      rw [← BitVec.toNat_inj]
      have sum : (pointer + BitVec.ofNat 16 count).toNat = pointer.toNat + count := by bv_omega
      rw [sum]
    rw [pushZeros, read_push top free, before, next]
    by_cases stack : cell = Cell.stack
    · rw [if_pos stack, if_pos stack]
    · rw [if_neg stack, if_neg stack, if_neg stack]
      by_cases last : cell = pointer + BitVec.ofNat 16 count
      · have inside : pointer.toNat ≤ cell.toNat ∧ cell.toNat < pointer.toNat + (count + 1) := by
          have value := here.mp last
          omega
        rw [if_pos last, if_pos inside]
      · have same : pointer.toNat ≤ cell.toNat ∧ cell.toNat < pointer.toNat + count ↔
            pointer.toNat ≤ cell.toNat ∧ cell.toNat < pointer.toNat + (count + 1) := by
          have other := mt here.mpr last
          omega
        simp only [if_neg last, same]

end Memory

/-- A piece of code is executed so many times, each time from its start and with the memory that the
time before has left, and goes on behind itself. -/
inductive Repeats (code : Array Instruction) (first last : Nat) (before : Memory) :
    Nat → Memory → Prop
  | none : Repeats code first last before 0 before
  | again {count : Nat} {machine result : Machine}
      (earlier : Repeats code first last before count machine.memory)
      (executed : Executes code first last machine result) (behind : result.counter = last) :
      Repeats code first last before (count + 1) result.memory

/-- Code that pushes a zero, executed so many times, pushes as many zeros. -/
theorem repeats_iff_pushZeros {code : Array Instruction} {first last count : Nat}
    {before after : Memory}
    (pushes : ∀ memory : Memory, memory.read Cell.stack ≠ Cell.stack →
      Leaves code first last memory (memory.push 0)) (room : before.Room count) :
    Repeats code first last before count after ↔ after = before.pushZeros count := by
  induction count generalizing after with
  | zero =>
    constructor
    · intro repeated
      cases repeated
      rfl
    · rintro rfl
      exact .none
  | succ count ih =>
    have less : before.Room count := fun done bound => room done (by omega)
    have free : (before.pushZeros count).read Cell.stack ≠ Cell.stack := by
      rw [Memory.read_stack_pushZeros less]
      exact room count (Nat.lt_succ_self count)
    constructor
    · intro repeated
      cases repeated with
      | @again _ machine result earlier executed behind =>
        obtain ⟨other, again, -, memory⟩ :=
          pushes _ free machine executed.1 ((ih less).mp earlier)
        rw [executed.unique again, memory]
        rfl
    · rintro rfl
      obtain ⟨result, executed, behind, memory⟩ :=
        pushes _ free ⟨before.pushZeros count, first, 0, 0⟩ rfl rfl
      have repeated := Repeats.again ((ih less).mpr rfl) executed behind
      rwa [memory] at repeated

/-- A program that is loaded from a text with a block in it. The block stands on lines of its own,
behind so many instructions. -/
structure Embedded (program : Program) (front : String) (block : Block) (back : String)
    (first : Nat) : Prop where
  whole : front = "" ∨ front.toList.getLast? = some '\n'
  loaded : Program.load (front ++ block.text ++ back) = .ok program
  behind : first = (instructions program.value (Statement.ofSource front)).length

namespace Embedded

variable {program : Program} {front back : String} {block : Block} {first : Nat}

theorem assembled (embedded : Embedded program front block back first)
    (readable : block.Readable) :
    assemble (Statement.ofSource front ++ block.code ++ Statement.ofSource back) = .ok program := by
  rw [← ofSource_around readable back embedded.whole]
  exact embedded.loaded

theorem holds (embedded : Embedded program front block back first) (readable : block.Readable)
    (closed : ∀ statement ∈ block.code, statement.isClosed = true) :
    Holds program.code program.value first block.code := by
  obtain ⟨-, -, -, code⟩ := assemble_ok (embedded.assembled readable)
  rw [instructions_append, instructions_append] at code
  rw [embedded.behind]
  exact holds_of_code closed code

/-- A text of which the parts around a block are read as closed statements loads if it is not too
long. -/
theorem exists_program {above below : List Statement} (readable : block.Readable)
    (whole : front = "" ∨ front.toList.getLast? = some '\n')
    (head : Statement.ofSource front = above) (tail : Statement.ofSource back = below)
    (closed : ∀ statement ∈ above, statement.isClosed = true)
    (fits : size (above ++ block.code ++ below) ≤ maxConstant)
    (room : firstVariable + (references (above ++ block.code ++ below)).length ≤ maxConstant) :
    ∃ program, assemble (above ++ block.code ++ below) = .ok program ∧
      Embedded program front block back (size above) := by
  obtain ⟨program, assembled⟩ := assemble_succeeds fits room
  refine ⟨program, assembled, whole, ?_, ?_⟩
  · rw [Program.load, ofSource_around readable back whole, head, tail]
    exact assembled
  · rw [head, length_instructions _ closed]

end Embedded

theorem legal_pushZero : ∀ statement ∈ Code.pushZero, statement.Legal := by
  decide

theorem readable_function {name : String} (line : OneLine name) (locals : Word) :
    (⟨(Command.function name locals).text, Code.function name locals.toNat⟩ : Block).Readable := by
  constructor
  · refine newline_spell fun argument member => ?_
    simp only [List.mem_cons, List.not_mem_nil, or_false] at member
    rcases member with rfl | rfl
    · exact line.whole
    · exact not_mem_repr (by decide) _
  · intro statement member
    rcases Code.mem_function member with rfl | inside
    · exact readable_label line
    · exact (legal_pushZero statement inside).readable

theorem closed_function (name : String) (locals : Nat) :
    ∀ statement ∈ Code.function name locals, statement.isClosed = true := by
  intro statement member
  rcases Code.mem_function member with rfl | inside
  · rfl
  · exact (legal_pushZero statement inside).isClosed

def Generator.ResolvesUnder (generator : Generator) (name : String) : Prop :=
  ∀ label, generator.code (.label label) = .ok [.label (name ++ "$" ++ label)] ∧
    generator.code (.goto label) = .ok (Code.goto (name ++ "$" ++ label)) ∧
    generator.code (.ifGoto label) = .ok (Code.ifGoto (name ++ "$" ++ label))

theorem Generator.resolvesUnder_of_scope {generator : Generator} {name : String}
    (scope : generator.scope = .function name) : generator.ResolvesUnder name := by
  intro label
  simp only [code, scope]
  exact ⟨rfl, rfl, rfl⟩

theorem Compilation.scope_compile_function {σ : Type} [Sink σ] (name : String) (locals : Word)
    (before : Compilation σ) :
    (stateOf (compile (.function name locals) before)).generator.scope = .function name := by
  rw [generator_compile]
  rfl

/-- The block of a function in a program in which `SP` is the stack pointer. -/
theorem Embedded.leaves_function {name : String} {locals : Word} (line : OneLine name)
    {program : Program} {front back : String} {first : Nat}
    (embedded : Embedded program front
      ⟨(Command.function name locals).text, Code.function name locals.toNat⟩ back first)
    (stack : program.value "SP" = Cell.stack) {before : Memory} (room : before.Room locals.toNat) :
    Leaves program.code first (first + size (Code.function name locals.toNat)) before
      (before.pushZeros locals.toNat) :=
  Code.leaves_function
    (embedded.holds (readable_function line locals) (closed_function name locals.toNat)) stack room

/-- The symbol of a function that is not declared again leads to its block, unless a declaration
before it is not closed. -/
theorem Embedded.symbol_function {name : String} {locals : Word} (line : OneLine name)
    {program : Program} {front back : String} {first : Nat}
    (embedded : Embedded program front
      ⟨(Command.function name locals).text, Code.function name locals.toNat⟩ back first)
    (closed : ∀ statement ∈ Statement.ofSource front, statement.isClosed = true)
    (last : name ∉ labels (Statement.ofSource back)) :
    ∃ address, program.symbol name = .ok address ∧ address.toNat = first := by
  have assembled := embedded.assembled (readable_function line locals)
  rw [Code.function, List.append_assoc, List.cons_append] at assembled
  have behind : name ∉ labels
      ((List.replicate locals.toNat Code.pushZero).flatten ++ Statement.ofSource back) := by
    rwa [labels_append, labels_pushZeros, List.nil_append]
  refine ⟨program.value name, symbol_label assembled behind, ?_⟩
  rw [toNat_value_label assembled behind, embedded.behind, length_instructions _ closed]

theorem legal_pushConstantZero :
    (⟨(Command.push .constant 0).text, Code.pushConstant 0⟩ : Block).Legal :=
  ⟨by decide, by decide⟩

theorem Embedded.leaves_pushZero {program : Program} {front back : String} {first : Nat}
    (embedded : Embedded program front
      ⟨(Command.push .constant 0).text, Code.pushConstant 0⟩ back first)
    (stack : program.value "SP" = Cell.stack) {before : Memory}
    (free : before.read Cell.stack ≠ Cell.stack) :
    Leaves program.code first (first + size (Code.pushConstant 0)) before (before.push 0) := by
  have held := embedded.holds legal_pushConstantZero.readable
    fun statement member => (legal_pushConstantZero.code statement member).isClosed
  exact Code.leaves_pushConstant held stack free

/-- The entry of a function zeroes its locals and nothing else. In any program that contains the
block of a function and in which `SP` is the stack pointer, and from any machine at the block whose
stack pointer is at the base of the stack or above and leaves room for the locals, execution goes to
the instruction behind the block. Then the cells of the locals are zero, the stack pointer is above
them, and every other cell is as it was. This is what as many executions of the block of `push
constant 0` leave, in any program that contains it. The function's symbol leads to the block, unless
something before it is an unclosed declaration or something behind it declares the symbol again. And
whatever the sink does, all labels and jumps that are compiled later resolve under the function's
name, until a function or a module begins. -/
theorem function_entry_zeroes_locals (name : String) (locals : Word) :
    (OneLine name → ∀ (generator next : Generator) (block : Block),
      generator.generate (.function name locals) = .ok (next, block) →
      ∀ (program : Program) (front back : String) (first : Nat),
        Embedded program front block back first →
        (program.value "SP" = Cell.stack → ∀ machine : Machine, machine.counter = first →
          let pointer := machine.memory.read Cell.stack
          256 ≤ pointer.toNat → pointer.toNat + locals.toNat ≤ 32767 →
          ∃ result, Executes program.code first (first + size block.code) machine result ∧
            result.counter = first + size block.code ∧
            (∀ cell, result.memory.read cell =
              if cell = Cell.stack then pointer + locals
              else if pointer.toNat ≤ cell.toNat ∧ cell.toNat < pointer.toNat + locals.toNat then 0
              else machine.memory.read cell) ∧
            ∀ (state after : Generator) (pushed : Block),
              state.generate (.push .constant 0) = .ok (after, pushed) →
              ∀ (other : Program) (above below : String) (start : Nat),
                Embedded other above pushed below start → other.value "SP" = Cell.stack →
                ∀ memory, Repeats other.code start (start + size pushed.code) machine.memory
                  locals.toNat memory ↔ memory = result.memory) ∧
        ((∀ statement ∈ Statement.ofSource front, statement.isClosed = true) →
          name ∉ labels (Statement.ofSource back) →
          ∃ address, program.symbol name = .ok address ∧ address.toNat = first)) ∧
    ∀ {σ : Type} [Sink σ] (before : Compilation σ) (actions : List Action) (action : Action),
      (∀ other ∈ actions, other.Stays) → action.Stays →
      let entered := stateOf (Compilation.compile (.function name locals) before)
      let middle := Compilation.session actions entered
      let course := action.course middle.generator
      Compilation.Follows action.run middle course ∧ middle.generator.ResolvesUnder name ∧
        ∀ state command, .compiled state command ∈ course.emissions → state.ResolvesUnder name := by
  constructor
  · intro line generator next block generated program front back first embedded
    cases generated
    constructor
    · intro stack machine start pointer low high
      have points : machine.memory.read Cell.stack = pointer := rfl
      have room : machine.memory.Room locals.toNat :=
        Memory.room_of_fits points (by omega) (by omega)
      obtain ⟨result, executed, counter, memory⟩ :=
        embedded.leaves_function line stack room machine start rfl
      refine ⟨result, executed, counter, fun cell => ?_, ?_⟩
      · rw [memory, Memory.read_pushZeros points (by omega) (by omega), BitVec.ofNat_toNat,
          BitVec.setWidth_eq]
      · intro state after pushed made other above below there inside known left
        cases made
        rw [memory]
        exact repeats_iff_pushZeros (fun _ free => inside.leaves_pushZero known free) room
    · exact embedded.symbol_function line
  · intro σ _ before actions action others stays entered middle course
    have scope : middle.generator.scope = .function name :=
      (Compilation.scope_session others entered).trans
        (Compilation.scope_compile_function name locals before)
    refine ⟨Compilation.follows_action action middle, Generator.resolvesUnder_of_scope scope, ?_⟩
    intro state command member
    exact Generator.resolvesUnder_of_scope ((Action.scope_of_mem_course stays member).trans scope)

def pairBlock : Block := ⟨"function f 2", Code.function "f" 2⟩

def zeroBlock : Block := ⟨"push constant 0", Code.pushConstant 0⟩

/-- A machine behind two instructions, with old values where the locals of a function come and above
them. -/
def occupied : Machine where
  memory := (((Memory.zero.write Cell.stack 300).write 300 9).write 301 9).write 302 9
  counter := 2

def refusals : List Action :=
  [.compile .ret, .enterModule "no name", .compile (.push .constant 40000), .bootstrap]

theorem function_entry_zeroes_locals_occupied : ∃ program other result,
    Embedded program "@7\nD=A\n" pairBlock "" 2 ∧ Embedded other "" zeroBlock "" 0 ∧
      Executes program.code 2 10 occupied result ∧ result.memory.read Cell.stack = 302 ∧
      result.memory.read 300 = 0 ∧ result.memory.read 301 = 0 ∧ result.memory.read 302 = 9 ∧
      Repeats other.code 0 6 occupied.memory 2 result.memory ∧
      (∃ address, program.symbol "f" = .ok address ∧ address.toNat = 2) ∧
      let full : Compilation MemorySink := { sink := { limit := some 0 } }
      (Compilation.session refusals
        (stateOf (Compilation.compile (.function "f" 2) full))).generator.ResolvesUnder "f" := by
  have line : OneLine "f" := oneLine_of_isSymbol (by decide)
  have front : Statement.ofSource "@7\nD=A\n" = [.number 7, .store .onlyD (.copy .a)] := by
    decide +kernel
  have empty : Statement.ofSource "" = [] := by decide +kernel
  obtain ⟨program, assembled, embedded⟩ := @Embedded.exists_program _ _ pairBlock _ _
    (readable_function line 2) (.inr (by decide)) front empty (by decide) (by decide) (by decide)
  obtain ⟨other, pushing, single⟩ := @Embedded.exists_program _ _ zeroBlock _ _
    legal_pushConstantZero.readable (.inl rfl) empty empty (by decide) (by decide) (by decide)
  have stack : program.value "SP" = Cell.stack :=
    value_predefined assembled (by decide) (by decide)
  have known : other.value "SP" = Cell.stack := value_predefined pushing (by decide) (by decide)
  have points : occupied.memory.read Cell.stack = 300 := by
    simp [occupied, Memory.read_write, Cell.stack]
  obtain ⟨entry, resolves⟩ := function_entry_zeroes_locals "f" 2
  obtain ⟨zeroes, leads⟩ := entry line {} _ pairBlock rfl _ _ _ _ embedded
  obtain ⟨result, executed, -, cells, same⟩ :=
    zeroes stack occupied rfl (by rw [points]; decide) (by rw [points]; decide)
  simp only [points] at cells
  refine ⟨program, other, result, embedded, single, executed, cells _, cells _, cells _, ?_, ?_, ?_,
    ?_⟩
  · rw [cells]
    simp [occupied, Cell.stack]
  · exact (same {} _ zeroBlock rfl other _ _ _ single known _).mpr rfl
  · refine leads ?_ ?_
    · rw [front]
      decide
    · rw [empty]
      decide
  · exact (resolves _ refusals (.compile .ret) (by decide) (by decide)).2.1

def jumpBefore : String := "// goto X\n@M:X\n0;JMP\n// label X\n(M:X)\n"

def endBehind : String := "// end\n(VM$END)\n@VM$END\n0;JMP\n"

def shadowBlock : Block := ⟨"function SP 1", Code.function "SP" 1⟩

def stacked : Machine where
  memory := (Memory.zero.write Cell.stack 256).write 256 5
  counter := 2

/-- The function's label takes the place of the stack pointer's symbol. The local keeps its old
value, and the stack pointer is lost. -/
theorem function_entry_shadows_stack : isSymbol "SP" = true ∧ ∃ next program result,
    ({ module := "M", scope := .module "M" } : Generator).generate (.function "SP" 1) =
        .ok (next, shadowBlock) ∧
      Embedded program jumpBefore shadowBlock endBehind 2 ∧ program.symbol "SP" = .ok 2 ∧
      stacked.memory.read Cell.stack = 256 ∧ stacked.memory.read 256 = 5 ∧
      Executes program.code 2 6 stacked result ∧ result.counter = 6 ∧
      result.memory.read Cell.stack = 0 ∧ result.memory.read 256 = 5 := by
  have line : OneLine "SP" := oneLine_of_isSymbol (by decide)
  have front : Statement.ofSource jumpBefore =
      [.symbol "M:X", .jump .zero .always, .label "M:X"] := by decide +kernel
  have back : Statement.ofSource endBehind = Code.loop "VM$END" := by decide +kernel
  have readable : shadowBlock.Readable := readable_function line 1
  obtain ⟨program, assembled, embedded⟩ :=
    Embedded.exists_program readable (.inr (by decide)) front back (by decide) (by decide)
      (by decide)
  have declared : assemble ([.symbol "M:X", .jump .zero .always, .label "M:X"] ++
      .label "SP" :: (Code.pushZero ++ Code.loop "VM$END")) = .ok program := assembled
  have value : program.value "SP" = 2 := value_label declared (by decide)
  have cells : ∀ cell, stacked.memory.read cell =
      if cell = 256 then 5 else if cell = Cell.stack then 256 else 0 := by
    intro cell
    simp [stacked, Memory.read_write]
  have leaves : Leaves program.code 2 6 stacked.memory
      ((stacked.memory.write 2 1).write Cell.stack 0) := by
    refine leaves_straight (embedded.holds readable (closed_function "SP" 1)) rfl rfl fun a d => ?_
    simp [shadowBlock, Code.function, Code.pushZero, value, Computation.value,
      Computation.value.pick, cells, Cell.stack]
  obtain ⟨result, executed, counter, memory⟩ := leaves stacked rfl rfl
  refine ⟨by decide, _, program, result, rfl, embedded, ?_, cells _, cells _, executed, counter,
    ?_, ?_⟩
  · rw [symbol_label declared (by decide), value]
  · rw [memory, Memory.read_write_self]
  · rw [memory]
    simp [Memory.read_write, cells, Cell.stack]

end HackStack
