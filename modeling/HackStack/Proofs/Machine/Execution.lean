import HackStack.Machine
import HackStack.Proofs.Assembly.Loading

/-! Running pieces of code. Straight code is executed statement by statement without looking at the
counter; a path between two addresses ends when the counter leaves them. -/
namespace HackStack.Machine
open Assembly

/-- The instructions of statements lie in the instruction memory from an address on. -/
def Holds (code : Array Instruction) (symbols : String → Word) : Nat → List Statement → Prop
  | _, [] => True
  | address, statement :: rest =>
    (∀ instruction, statement.instruction? symbols = some instruction →
      code[address]? = some instruction) ∧
    Holds code symbols (address + size [statement]) rest

variable {code : Array Instruction} {symbols : String → Word}

theorem holds_append {address : Nat} {first second : List Statement} :
    Holds code symbols address (first ++ second) ↔
      Holds code symbols address first ∧ Holds code symbols (address + size first) second := by
  induction first generalizing address with
  | nil => simp [Holds, size]
  | cons statement rest ih =>
    rw [List.cons_append, Holds, Holds, ih, size_cons statement rest, Nat.add_assoc, and_assoc]

/-- Where the instructions of statements stand among others, they lie there. -/
theorem holds_of_code {front rest : List Instruction} {statements : List Statement}
    (closed : ∀ statement ∈ statements, statement.isClosed = true)
    (whole : code.toList = front ++ instructions symbols statements ++ rest) :
    Holds code symbols front.length statements := by
  induction statements generalizing front with
  | nil => trivial
  | cons statement others ih =>
    rw [instructions_cons, List.append_assoc, List.append_assoc] at whole
    refine ⟨fun instruction found => ?_, ?_⟩
    · have here : instructions symbols [statement] = [instruction] := by
        simp [instructions, found]
      rw [← Array.getElem?_toList, whole, here]
      simp
    · have count := @length_instructions symbols [statement] fun other member =>
        closed other (List.mem_singleton.mp member ▸ List.mem_cons_self)
      have later := @ih (front ++ instructions symbols [statement])
        (fun other member => closed other (List.mem_cons_of_mem _ member))
        (by rw [whole]; simp)
      rwa [List.length_append, count] at later

theorem holds_of_closed {statements : List Statement} {program : Program}
    (closed : ∀ statement ∈ statements, statement.isClosed = true)
    (assembled : assemble statements = .ok program) :
    Holds program.code program.value 0 statements := by
  obtain ⟨-, -, -, code⟩ := assemble_ok assembled
  refine @holds_of_code _ _ [] [] _ closed ?_
  rw [code, List.nil_append, List.append_nil]

theorem holds_of_assemble {statements : List Statement} {program : Program}
    (legal : ∀ statement ∈ statements, statement.Legal)
    (assembled : assemble statements = .ok program) :
    Holds program.code program.value 0 statements :=
  holds_of_closed (fun statement member => (legal statement member).isClosed) assembled

/-- What a statement that does not jump does. A declaration does nothing. -/
def perform (symbols : String → Word) (machine : Machine) : Statement → Machine
  | .address operand =>
    { machine with a := operand.value symbols, counter := machine.counter + 1 }
  | .compute destination (.known computation) _ =>
    let result := computation.value machine.a machine.d (machine.memory.read machine.a)
    { machine.store destination result with counter := machine.counter + 1 }
  | _ => machine

def isStraight : Statement → Bool
  | .label _ | .address _ | .compute _ (.known _) (.known .never) => true
  | _ => false

theorem counter_perform {machine : Machine} {statement : Statement}
    (straight : isStraight statement = true) :
    (machine.perform symbols statement).counter = machine.counter + size [statement] := by
  cases statement with
  | label | address => rfl
  | unclosed => cases straight
  | compute destination computation jump =>
    cases computation with
    | known => rfl
    | unknown => cases straight

theorem counter_foldl {machine : Machine} {statements : List Statement}
    (straight : ∀ statement ∈ statements, isStraight statement = true) :
    (statements.foldl (perform symbols) machine).counter = machine.counter + size statements := by
  induction statements generalizing machine with
  | nil => rfl
  | cons statement rest ih =>
    rw [List.foldl_cons, ih fun other member => straight other (List.mem_cons_of_mem _ member),
      counter_perform (straight statement List.mem_cons_self), size_cons statement rest,
      Nat.add_assoc]

/-- What a computing statement does: it stores, and jumps if its result says so. -/
def transfer (machine : Machine) (destination : Destination) (computation : Computation)
    (jump : Jump) : Machine :=
  let result := computation.value machine.a machine.d (machine.memory.read machine.a)
  { machine.store destination result with
    counter := if jump.taken result then machine.a.toNat else machine.counter + 1 }

theorem step_transfer {machine : Machine} {destination : Destination} {computation : Computation}
    {jump : Jump} {rest : List Statement}
    (held : Holds code symbols machine.counter
      (.compute destination (.known computation) (.known jump) :: rest)) :
    step code machine = .ok (machine.transfer destination computation jump) := by
  simp only [step, held.1 _ rfl, transfer]

theorem step_perform {machine : Machine} {statement : Statement} {rest : List Statement}
    (held : Holds code symbols machine.counter (statement :: rest))
    (straight : isStraight statement = true) (taken : 0 < size [statement]) :
    step code machine = .ok (machine.perform symbols statement) := by
  cases statement with
  | label => simp [size, Statement.takesAddress, Statement.label?] at taken
  | unclosed => cases straight
  | address operand => simp only [step, held.1 _ rfl, perform]
  | compute destination computation jump =>
    cases computation with
    | unknown => cases straight
    | known computation =>
      cases jump with
      | unknown => cases straight
      | known jump =>
        have never : jump = .never := by
          cases jump with
          | never => rfl
          | _ => cases straight
        subst never
        exact step_transfer held

theorem perform_silent {machine : Machine} {statement : Statement}
    (straight : isStraight statement = true) (silent : size [statement] = 0) :
    machine.perform symbols statement = machine := by
  cases statement with
  | label => rfl
  | unclosed => cases straight
  | address | compute => exact absurd silent Nat.one_ne_zero

def Inside (first last : Nat) (machine : Machine) : Prop :=
  first < machine.counter ∧ machine.counter < last

/-- One or more steps, all but the last of which end strictly between two addresses. -/
inductive Path (code : Array Instruction) (first last : Nat) : Machine → Machine → Prop
  | last (taken : step code before = .ok after) : Path code first last before after
  | next (taken : step code before = .ok middle) (inside : Inside first last middle)
      (rest : Path code first last middle after) : Path code first last before after

namespace Path

variable {first last : Nat} {before middle after : Machine}

theorem steps (path : Path code first last before after) :
    ∃ count, Machine.steps code count before = .ok after := by
  induction path with
  | last taken => exact ⟨1, by simp only [Machine.steps, taken]⟩
  | next taken _ _ ih =>
    obtain ⟨count, rest⟩ := ih
    exact ⟨count + 1, by simp only [Machine.steps, taken, rest]⟩

/-- A path is determined by where it starts, if its end has left the two addresses. -/
theorem unique {other : Machine} (path : Path code first last before after)
    (left : ¬ Inside first last after) (second : Path code first last before other)
    (away : ¬ Inside first last other) : after = other := by
  induction path with
  | last taken =>
    cases second with
    | last same => exact Except.ok.inj (taken.symm.trans same)
    | next same inside _ =>
      cases taken.symm.trans same
      exact absurd inside left
  | next taken inside _ ih =>
    cases second with
    | last same =>
      cases taken.symm.trans same
      exact absurd inside away
    | next same _ rest =>
      cases taken.symm.trans same
      exact ih left rest

theorem straight {statements : List Statement}
    (held : Holds code symbols before.counter statements)
    (straight : ∀ statement ∈ statements, isStraight statement = true)
    (start : first ≤ before.counter) (bound : before.counter + size statements < last)
    (rest : Path code first last (statements.foldl (perform symbols) before) after) :
    Path code first last before after := by
  induction statements generalizing before with
  | nil => exact rest
  | cons statement others ih =>
    have one := straight statement List.mem_cons_self
    have tail := fun other member => straight other (List.mem_cons_of_mem _ member)
    have counter := @counter_perform symbols before statement one
    have later : Holds code symbols (before.perform symbols statement).counter others := by
      rw [counter]
      exact held.2
    rw [size_cons] at bound
    have path := ih later tail (by omega) (by omega) rest
    by_cases taken : 0 < size [statement]
    · exact .next (step_perform held one taken) ⟨by omega, by omega⟩ path
    · rwa [perform_silent one (by omega)] at path

end Path

/-- The code between two addresses is executed from its start until control leaves it. Empty code
is left at once. -/
def Executes (code : Array Instruction) (first last : Nat) (before after : Machine) : Prop :=
  before.counter = first ∧
    (first = last ∧ after = before ∨
      first < last ∧ Path code first last before after ∧ ¬ Inside first last after)

namespace Executes

variable {first last : Nat} {before after other : Machine}

theorem unique (one : Executes code first last before after)
    (two : Executes code first last before other) : after = other := by
  rcases one with ⟨-, ⟨empty, rfl⟩ | ⟨room, path, left⟩⟩ <;>
    rcases two with ⟨-, ⟨none, rfl⟩ | ⟨space, way, away⟩⟩
  · rfl
  · omega
  · omega
  · exact path.unique left way away

theorem block {body tail : List Statement} {destination : Destination}
    {computation : Computation} {jump : Jump}
    (held : Holds code symbols first
      (body ++ .compute destination (.known computation) (.known jump) :: tail))
    (straight : ∀ statement ∈ body, isStraight statement = true) (silent : size tail = 0)
    (start : before.counter = first)
    (finish : (body.foldl (perform symbols) before).transfer destination computation jump = after)
    (left : ¬ Inside first
      (first + size (body ++ .compute destination (.known computation) (.known jump) :: tail))
      after) :
    Executes code first
      (first + size (body ++ .compute destination (.known computation) (.known jump) :: tail))
      before after := by
  have one : size [Statement.compute destination (.known computation) (.known jump)] = 1 := rfl
  have total : size (body ++ .compute destination (.known computation) (.known jump) :: tail) =
      size body + 1 := by
    rw [size_append, size_cons, one, silent]
  rw [holds_append] at held
  have counter := @counter_foldl symbols before body straight
  have last : step code (body.foldl (perform symbols) before) = .ok after := by
    rw [← finish]
    apply step_transfer
    rw [counter, start]
    exact held.2
  refine ⟨start, .inr ⟨by omega, ?_, left⟩⟩
  exact Path.straight (start ▸ held.1) straight (by omega) (by omega) (.last last)

theorem steps (executed : Executes code first last before after) :
    ∃ count, Machine.steps code count before = .ok after := by
  rcases executed with ⟨-, ⟨-, rfl⟩ | ⟨-, path, -⟩⟩
  · exact ⟨0, rfl⟩
  · exact path.steps

end Executes

theorem steps_append {first second : Nat} {before middle after : Machine}
    (head : steps code first before = .ok middle) (tail : steps code second middle = .ok after) :
    steps code (first + second) before = .ok after := by
  induction first generalizing before with
  | zero =>
    cases head
    rwa [Nat.zero_add]
  | succ count ih =>
    rw [steps] at head
    rw [Nat.succ_add, steps]
    split at head
    · exact ih head
    · cases head

/-- Among statements that take up more than some addresses, one comes right behind these. -/
theorem exists_statement {statements : List Statement} {offset : Nat}
    (bound : offset < size statements) :
    ∃ head statement rest, statements = head ++ statement :: rest ∧ size head = offset ∧
      size [statement] = 1 := by
  induction statements generalizing offset with
  | nil => exact absurd bound (Nat.not_lt_zero _)
  | cons statement others ih =>
    rw [size_cons] at bound
    by_cases empty : size [statement] = 0
    · obtain ⟨head, found, rest, rfl, before, one⟩ := ih (by omega : offset < size others)
      exact ⟨statement :: head, found, rest, rfl, by rw [size_cons]; omega, one⟩
    · have one : size [statement] = 1 := by
        have few : size [statement] ≤ 1 := List.countP_le_length
        omega
      cases offset with
      | zero => exact ⟨[], statement, others, rfl, rfl, one⟩
      | succ offset =>
        obtain ⟨head, found, rest, rfl, before, taken⟩ := ih (by omega : offset < size others)
        exact ⟨statement :: head, found, rest, rfl, by rw [size_cons]; omega, taken⟩

section
variable {first last : Nat} {body tail : List Statement} {name : String}

/-- The counter is in a piece of code, and on its last instruction the address is that of a name. -/
def Aimed (symbols : String → Word) (first last : Nat) (name : String) (machine : Machine) : Prop :=
  first ≤ machine.counter ∧ machine.counter < last ∧
    (machine.counter + 1 = last → machine.a = symbols name)

/-- Straight code that ends with a jump strictly into itself goes on inside. -/
theorem step_aimed {machine next : Machine}
    (held : Holds code symbols first (body ++ .symbol name :: .jump .zero .always :: tail))
    (straight : ∀ statement ∈ body, isStraight statement = true)
    (total : last = first + size body + 2)
    (target : first < (symbols name).toNat ∧ (symbols name).toNat < last)
    (aimed : Aimed symbols first last name machine) (taken : step code machine = .ok next) :
    Inside first last next ∧ Aimed symbols first last name next := by
  obtain ⟨start, bound, address⟩ := aimed
  have done : Inside first last next → (next.counter + 1 = last → next.a = symbols name) →
      Inside first last next ∧ Aimed symbols first last name next :=
    fun inside address => ⟨inside, Nat.le_of_lt inside.1, inside.2, address⟩
  rw [holds_append] at held
  obtain ⟨front, held⟩ := held
  rcases Nat.lt_trichotomy machine.counter (first + size body) with before | here | behind
  · obtain ⟨head, statement, rest, rfl, offset, one⟩ :=
      exists_statement (by omega : machine.counter - first < size body)
    have place : first + size head = machine.counter := by omega
    have plain := straight statement (List.mem_append_right _ List.mem_cons_self)
    rw [holds_append, place] at front
    rw [step_perform front.2 plain (by omega)] at taken
    cases taken
    have counter := @counter_perform symbols machine statement plain
    refine done ⟨by omega, by omega⟩ fun end_ => ?_
    omega
  · rw [← here] at held
    rw [step_perform held rfl Nat.one_pos] at taken
    cases taken
    refine done ⟨?_, ?_⟩ fun _ => rfl
    · exact Nat.lt_succ_of_le start
    · change machine.counter + 1 < last
      omega
  · have place : machine.counter = first + size body + size [Statement.symbol name] := by
      have one : size [Statement.symbol name] = 1 := rfl
      omega
    have aimed := address (by omega)
    rw [step_transfer (place ▸ held.2)] at taken
    cases taken
    refine done ?_ fun _ => aimed
    simp only [Inside, transfer, Jump.taken, if_true, aimed]
    exact target

/-- Such code is never left. -/
theorem Path.trapped {before after : Machine} (path : Path code first last before after)
    (held : Holds code symbols first (body ++ .symbol name :: .jump .zero .always :: tail))
    (straight : ∀ statement ∈ body, isStraight statement = true)
    (total : last = first + size body + 2)
    (target : first < (symbols name).toNat ∧ (symbols name).toNat < last)
    (aimed : Aimed symbols first last name before) : Inside first last after := by
  induction path with
  | last taken => exact (step_aimed held straight total target aimed taken).1
  | next taken _ _ ih => exact ih (step_aimed held straight total target aimed taken).2

theorem Executes.not_into_itself {before after : Machine}
    (executed : Executes code first last before after)
    (held : Holds code symbols first (body ++ .symbol name :: .jump .zero .always :: tail))
    (straight : body.all isStraight = true) (total : last = first + size body + 2) :
    ¬ (first < (symbols name).toNat ∧ (symbols name).toNat < last) := by
  intro target
  obtain ⟨start, ⟨empty, -⟩ | ⟨-, path, left⟩⟩ := executed
  · omega
  · refine left (path.trapped held (List.all_eq_true.mp straight) total target ?_)
    exact ⟨by omega, by omega, fun end_ => by omega⟩

end

end HackStack.Machine
