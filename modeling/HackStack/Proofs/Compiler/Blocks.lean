import HackStack.Compiler.Code
import HackStack.Proofs.Machine.Execution
import HackStack.Proofs.Reference.Stack

/-! The code of each command does to memory what the command means, outside the scratch cells. What
the code of a stack command leaves is also known to the last cell. -/
namespace HackStack
open Assembly Machine

/-- The symbols that generated code relies on have the values it expects. -/
structure Fixed (symbols : String → Word) : Prop where
  stack : symbols "SP" = Cell.stack
  locals : symbols "LCL" = Cell.locals
  arguments : symbols "ARG" = Cell.arguments
  this : symbols "THIS" = Cell.this
  that : symbols "THAT" = Cell.that
  frame : symbols "R13" = Cell.frame
  landing : symbols "R14" = Cell.landing

/-- The symbols that every program knows have their own values. -/
def Standard (symbols : String → Word) : Prop :=
  ∀ name value, (name, value) ∈ predefined → symbols name = value

theorem Standard.fixed {symbols : String → Word} (standard : Standard symbols) :
    Fixed symbols where
  stack := standard _ _ (by decide)
  locals := standard _ _ (by decide)
  arguments := standard _ _ (by decide)
  this := standard _ _ (by decide)
  that := standard _ _ (by decide)
  frame := standard _ _ (by decide)
  landing := standard _ _ (by decide)

/-- Code between two addresses, started with a memory, ends at an address and with a memory that is
the given one outside the scratch cells. -/
def Performs (code : Array Instruction) (first last : Nat) (before : Memory) (next : Nat)
    (after : Memory) : Prop :=
  ∀ machine : Machine, machine.counter = first → machine.memory = before →
    ∃ result, Executes code first last machine result ∧ result.counter = next ∧
      Agree result.memory after

/-- Code between two addresses, started with a memory, goes on behind itself and leaves exactly the
given memory. -/
def Leaves (code : Array Instruction) (first last : Nat) (before after : Memory) : Prop :=
  ∀ machine : Machine, machine.counter = first → machine.memory = before →
    ∃ result, Executes code first last machine result ∧ result.counter = last ∧
      result.memory = after

variable {code : Array Instruction} {symbols : String → Word} {first : Nat} {before after : Memory}

theorem Leaves.performs {last : Nat} {meant : Memory} (leaves : Leaves code first last before after)
    (agree : Agree after meant) : Performs code first last before last meant := by
  intro machine start held
  obtain ⟨result, executed, counter, memory⟩ := leaves machine start held
  exact ⟨result, executed, counter, memory ▸ agree⟩

@[simp] theorem perform_label (machine : Machine) (name : String) :
    machine.perform symbols (.label name) = machine := rfl

@[simp] theorem perform_symbol (machine : Machine) (name : String) :
    machine.perform symbols (.symbol name) =
      { machine with a := symbols name, counter := machine.counter + 1 } := rfl

@[simp] theorem perform_number (machine : Machine) (value : Nat) :
    machine.perform symbols (.number value) =
      { machine with a := BitVec.ofNat 16 value, counter := machine.counter + 1 } := rfl

section
variable (memory : Memory) (counter : Nat) (a d : Word) (computation : Computation)

@[simp] theorem perform_onlyA :
    perform symbols ⟨memory, counter, a, d⟩ (.store .onlyA computation) =
      ⟨memory, counter + 1, computation.value a d (memory.read a), d⟩ := rfl

@[simp] theorem perform_onlyD :
    perform symbols ⟨memory, counter, a, d⟩ (.store .onlyD computation) =
      ⟨memory, counter + 1, a, computation.value a d (memory.read a)⟩ := rfl

@[simp] theorem perform_onlyM :
    perform symbols ⟨memory, counter, a, d⟩ (.store .onlyM computation) =
      ⟨memory.write a (computation.value a d (memory.read a)), counter + 1, a, d⟩ := rfl

@[simp] theorem perform_both :
    perform symbols ⟨memory, counter, a, d⟩ (.store .both computation) =
      ⟨memory.write a (computation.value a d (memory.read a)), counter + 1,
        computation.value a d (memory.read a), d⟩ := rfl

theorem foldl_pushData (stack : symbols "SP" = Cell.stack)
    (free : memory.read Cell.stack ≠ Cell.stack) :
    Code.pushData.foldl (perform symbols) ⟨memory, counter, a, d⟩ =
      ⟨memory.push d, counter + 4, memory.read Cell.stack, d⟩ := by
  simp only [Code.pushData, List.foldl_cons, List.foldl_nil, perform_symbol, perform_onlyA,
    perform_onlyM, stack, Computation.value, Computation.value.pick, BitVec.ofNat_eq_ofNat,
    Memory.read_write_self, BitVec.add_sub_cancel, Memory.push_eq free]

theorem foldl_popData (fixed : Fixed symbols) :
    Code.popData.foldl (perform symbols) ⟨memory, counter, a, d⟩ =
      ⟨memory.drop, counter + 3, memory.topCell, memory.popped⟩ := by
  simp [Code.popData, fixed.stack, Computation.value, Computation.value.pick, Memory.drop,
    Memory.topCell, Memory.popped]

end

theorem transfer_never (symbols : String → Word) (machine : Machine)
    (destination : Destination) (computation : Computation) :
    machine.transfer destination computation .never =
      machine.perform symbols (.store destination computation) := by
  simp [transfer, perform, Statement.store, Jump.taken]

/-- Straight code that ends with a store performs its statements in order. -/
theorem leaves_straight {block : List Statement} {destination : Destination}
    {computation : Computation} (held : Holds code symbols first block)
    (straight : block.all isStraight = true)
    (final : block.getLast? = some (.store destination computation))
    (effect : ∀ a d, (block.foldl (perform symbols) ⟨before, first, a, d⟩).memory = after) :
    Leaves code first (first + size block) before after := by
  rintro ⟨memory, counter, a, d⟩ rfl rfl
  have all := List.all_eq_true.mp straight
  have finish := @counter_foldl symbols ⟨memory, counter, a, d⟩ block all
  refine ⟨block.foldl (perform symbols) ⟨memory, counter, a, d⟩, ?_, finish, effect a d⟩
  obtain ⟨body, rfl⟩ := List.getLast?_eq_some_iff.mp final
  refine Executes.block held (fun statement member => all statement (List.mem_append_left _ member))
    rfl rfl ?_ ?_
  · rw [transfer_never symbols, List.foldl_append]
    rfl
  · intro inside
    exact absurd inside.2 (Nat.not_lt.mpr (Nat.le_of_eq finish.symm))

theorem performs_jump {body tail : List Statement} {computation : Computation} {jump : Jump}
    {next : Nat} (held : Holds code symbols first (body ++ .jump computation jump :: tail))
    (straight : body.all isStraight = true) (silent : size tail = 0)
    (outside : ¬ (first < next ∧ next < first + size (body ++ .jump computation jump :: tail)))
    (effect : ∀ a d, let middle := body.foldl (perform symbols) ⟨before, first, a, d⟩
      Agree middle.memory after ∧
        (middle.transfer .none computation jump).counter = next) :
    Performs code first (first + size (body ++ .jump computation jump :: tail)) before next
      after := by
  rintro ⟨memory, counter, a, d⟩ rfl rfl
  obtain ⟨agree, control⟩ := effect a d
  refine ⟨_, Executes.block held (List.all_eq_true.mp straight) silent rfl rfl ?_, control, agree⟩
  rw [Inside, control]
  exact outside

namespace Code

theorem performs_setStack (held : Holds code symbols first setStack) (fixed : Fixed symbols) :
    Performs code first (first + size setStack) before (first + size setStack)
      (before.write Cell.stack (BitVec.ofNat 16 stackBase)) := by
  refine (leaves_straight held rfl rfl fun a d => ?_).performs (Agree.refl _)
  simp [setStack, fixed.stack, Computation.value, Computation.value.pick]

theorem leaves_pushConstant {value : Nat} (held : Holds code symbols first (pushConstant value))
    (stack : symbols "SP" = Cell.stack) (free : before.read Cell.stack ≠ Cell.stack) :
    Leaves code first (first + size (pushConstant value)) before
      (before.push (BitVec.ofNat 16 value)) := by
  refine leaves_straight held rfl rfl fun a d => ?_
  simp [pushConstant, Computation.value, Computation.value.pick, foldl_pushData, stack, free]

def Place.cell (symbols : String → Word) (memory : Memory) : Place → Word
  | .based base offset => memory.read (symbols base) + BitVec.ofNat 16 offset
  | .direct symbol => symbols symbol

theorem leaves_pushFrom {place : Place} (held : Holds code symbols first (pushFrom place))
    (fixed : Fixed symbols) (free : before.read Cell.stack ≠ Cell.stack) :
    Leaves code first (first + size (pushFrom place)) before
      (before.push (before.read (place.cell symbols before))) := by
  cases place with
  | based base offset =>
    refine leaves_straight held rfl rfl fun a d => ?_
    simp [pushFrom, Place.cell, Computation.value, Computation.value.pick,
      Computation.value.other, foldl_pushData, fixed.stack, free]
  | direct symbol =>
    refine leaves_straight held rfl rfl fun a d => ?_
    simp [pushFrom, Place.cell, Computation.value, Computation.value.pick, foldl_pushData,
      fixed.stack, free]

/-- Memory when a pop is about to begin: the address of a based cell has been noted. -/
def Place.note (symbols : String → Word) (memory : Memory) (place : Place) : Memory :=
  match place with
  | .based .. => memory.write Cell.frame (place.cell symbols memory)
  | .direct _ => memory

theorem leaves_popTo {place : Place} (held : Holds code symbols first (popTo place))
    (fixed : Fixed symbols) :
    Leaves code first (first + size (popTo place)) before
      ((place.note symbols before).popInto (place.cell symbols before)) := by
  cases place with
  | based base offset =>
    refine leaves_straight held rfl rfl fun a d => ?_
    have target : ∀ value, (before.write Cell.frame value).drop.read Cell.frame = value := by
      intro value
      rw [Memory.drop, Memory.read_write_of_ne _ _ (by decide), Memory.read_write_self]
    simp only [popTo, List.foldl_append, List.foldl_cons, List.foldl_nil, perform_symbol,
      perform_number, perform_onlyD, perform_onlyM, perform_onlyA, foldl_popData _ _ _ _ fixed,
      fixed.frame, Computation.value, Computation.value.pick, Computation.value.other, target]
    rfl
  | direct symbol =>
    refine leaves_straight held rfl rfl fun a d => ?_
    simp [popTo, Place.cell, Place.note, Computation.value, Computation.value.pick, foldl_popData,
      fixed, Memory.popInto]

theorem performs_popTo {place : Place} (held : Holds code symbols first (popTo place))
    (fixed : Fixed symbols) (clear : ¬ Scratch before.topCell) :
    Performs code first (first + size (popTo place)) before (first + size (popTo place))
      (before.popInto (place.cell symbols before)) := by
  refine (leaves_popTo held fixed).performs ?_
  cases place with
  | based => exact ((Agree.refl before).write_scratch (by decide) _).popInto clear _
  | direct => exact Agree.refl _

theorem leaves_unary {computation : Computation} {change : Word → Word}
    (held : Holds code symbols first (unary computation)) (fixed : Fixed symbols)
    (meaning : ∀ a d m, computation.value a d m = change m) :
    Leaves code first (first + size (unary computation)) before (before.rewrite change) := by
  refine leaves_straight held rfl rfl fun a d => ?_
  simp only [unary, List.foldl_cons, List.foldl_nil, perform_symbol, perform_onlyA,
    perform_onlyM, fixed.stack, meaning]
  rfl

theorem leaves_binary {computation : Computation} {operate : Word → Word → Word}
    (held : Holds code symbols first (binary computation)) (fixed : Fixed symbols)
    (meaning : ∀ a d m, computation.value a d m = operate m d) :
    Leaves code first (first + size (binary computation)) before (before.combine operate) := by
  refine leaves_straight held rfl rfl fun a d => ?_
  simp only [binary, List.foldl_append, List.foldl_cons, List.foldl_nil,
    foldl_popData _ _ _ _ fixed, perform_onlyA, perform_onlyM, meaning]
  simp only [Memory.combine, Memory.rewrite, Memory.topCell, Memory.read_stack_drop]
  rfl

theorem performs_goto {symbol : String} {next : Nat}
    (held : Holds code symbols first (goto symbol)) (target : (symbols symbol).toNat = next)
    (outside : ¬ (first < next ∧ next < first + size (goto symbol))) :
    Performs code first (first + size (goto symbol)) before next before := by
  refine @performs_jump _ _ _ _ _ [.symbol symbol] [] .zero .always _ held rfl rfl outside
    fun a d => ?_
  exact ⟨Agree.refl _, target⟩

theorem performs_loop {label : String} (held : Holds code symbols first (loop label))
    (target : (symbols label).toNat = first) :
    Performs code first (first + size (loop label)) before first before := by
  refine @performs_jump _ _ _ _ _ [.label label, .symbol label] [] .zero .always _ held rfl rfl
    (fun inside => Nat.lt_irrefl _ inside.1) fun a d => ?_
  exact ⟨Agree.refl _, target⟩

theorem performs_ifGoto {symbol : String} {next : Nat}
    (held : Holds code symbols first (ifGoto symbol)) (fixed : Fixed symbols)
    (target : before.popped ≠ 0 → (symbols symbol).toNat = next)
    (through : before.popped = 0 → first + size (ifGoto symbol) = next)
    (outside : ¬ (first < next ∧ next < first + size (ifGoto symbol))) :
    Performs code first (first + size (ifGoto symbol)) before next before.drop := by
  refine @performs_jump _ _ _ _ _ (popData ++ [.symbol symbol]) [] (.copy .d) .notZero _ held rfl
    rfl outside fun a d => ?_
  have zero : before.popped.toInt = 0 ↔ before.popped = 0 := by
    constructor
    · exact fun equal => BitVec.eq_of_toInt_eq equal
    · intro equal
      rw [equal]
      rfl
  rw [List.foldl_append, foldl_popData _ _ _ _ fixed]
  refine ⟨Agree.refl _, ?_⟩
  by_cases empty : before.popped = 0
  · rw [← through empty]
    simp [transfer, Machine.store, Computation.value, Computation.value.pick, Jump.taken, empty]
    rfl
  · rw [← target empty]
    simp [transfer, Machine.store, Computation.value, Computation.value.pick, Jump.taken, zero]
    exact fun equal => absurd equal empty

theorem foldl_pushZeros (stack : symbols "SP" = Cell.stack) {memory : Memory} {count : Nat}
    (room : memory.Room count) (counter : Nat) (a d : Word) :
    (((List.replicate count pushZero).flatten).foldl (perform symbols)
      ⟨memory, counter, a, d⟩).memory = memory.pushZeros count := by
  induction count with
  | zero => rfl
  | succ count ih =>
    have before := ih fun done bound => room done (by omega)
    have free := room count (Nat.lt_succ_self count)
    rw [← Memory.read_stack_pushZeros fun done bound => room done (by omega)] at free
    rw [List.replicate_succ', List.flatten_append, List.foldl_append]
    generalize ((List.replicate count pushZero).flatten).foldl (perform symbols)
      ⟨memory, counter, a, d⟩ = middle at before
    obtain ⟨reached, counter, a, d⟩ := middle
    simp only at before
    subst before
    simp only [pushZero, List.flatten_cons, List.flatten_nil, List.append_nil, List.foldl_cons,
      List.foldl_nil, perform_symbol, perform_onlyA, perform_onlyM, stack, Computation.value,
      Computation.value.pick, BitVec.ofNat_eq_ofNat, Memory.read_write_self,
      BitVec.add_sub_cancel, Memory.pushZeros, Memory.push_eq free]

theorem mem_function {name : String} {locals : Nat} {statement : Statement}
    (member : statement ∈ function name locals) :
    statement = .label name ∨ statement ∈ pushZero := by
  rcases List.mem_cons.mp member with same | member
  · exact .inl same
  · obtain ⟨piece, copy, inside⟩ := List.mem_flatten.mp member
    rw [List.eq_of_mem_replicate copy] at inside
    exact .inr inside

/-- The code of a function needs no other symbol than that of the stack pointer. -/
theorem leaves_function {name : String} {locals : Nat}
    (held : Holds code symbols first (function name locals)) (stack : symbols "SP" = Cell.stack)
    (room : before.Room locals) :
    Leaves code first (first + size (function name locals)) before (before.pushZeros locals) := by
  cases locals with
  | zero =>
    intro machine start same
    exact ⟨machine, ⟨start, .inl ⟨rfl, rfl⟩⟩, start, same⟩
  | succ count =>
    have straight : (function name (count + 1)).all isStraight = true := by
      rw [List.all_eq_true]
      intro statement member
      rcases mem_function member with rfl | inside
      · rfl
      · exact List.all_eq_true.mp (rfl : pushZero.all isStraight = true) statement inside
    have final : (function name (count + 1)).getLast? = some (.store .onlyM .zero) := by
      rw [function, List.replicate_succ', List.flatten_append, ← List.cons_append,
        List.getLast?_append]
      rfl
    refine leaves_straight held straight final fun a d => ?_
    rw [function, List.foldl_cons, perform_label, foldl_pushZeros stack room]

def difference (yes : String) : List Statement :=
  popData ++ [.store .onlyA (.decrement .a), .store .onlyD (.subtractFrom .m), .symbol yes]

def writeFalse (done : String) : List Statement :=
  [.symbol "SP", .store .onlyA (.decrement .m), .store .onlyM .zero, .symbol done]

def aimTrue (yes : String) : List Statement :=
  [.label yes, .symbol "SP", .store .onlyA (.decrement .m)]

def decision (yes done : String) (jump : Jump) : List Statement :=
  difference yes ++ .jump (.copy .d) jump :: (writeFalse done ++ .jump .zero .always ::
    (aimTrue yes ++ .store .onlyM .minusOne :: [.label done]))

theorem references_compare (count : Nat) (jump : Jump) :
    references (compare count jump) =
      ["SP", "TRUE_" ++ count.repr, "SP", "END_" ++ count.repr, "SP"] := rfl

theorem labels_compare (count : Nat) (jump : Jump) :
    labels (compare count jump) = ["TRUE_" ++ count.repr, "END_" ++ count.repr] := rfl

theorem path_false {memory : Memory} {counter : Nat} {done : String} {rest : List Statement}
    (held : Holds code symbols (counter + 7) (writeFalse done ++ .jump .zero .always :: rest))
    (fixed : Fixed symbols) (target : (symbols done).toNat = counter + 15) (a d : Word) :
    Machine.Path code counter (counter + 15) ⟨memory, counter + 7, a, d⟩
      ⟨memory.rewrite fun _ => 0, counter + 15, symbols done, d⟩ := by
  rw [holds_append] at held
  have written : (writeFalse done).foldl (perform symbols) ⟨memory, counter + 7, a, d⟩ =
      ⟨memory.rewrite fun _ => 0, counter + 11, symbols done, d⟩ := by
    simp [writeFalse, fixed.stack, Computation.value, Computation.value.pick, Memory.rewrite,
      Memory.topCell]
  refine Machine.Path.straight held.1 (List.all_eq_true.mp rfl) (Nat.le_add_right ..)
    (Nat.add_lt_add_left (by decide : 11 < 15) counter) ?_
  rw [written]
  refine .last ?_
  rw [← target]
  exact @step_transfer code symbols ⟨_, counter + 11, _, _⟩ _ _ _ _ held.2

theorem path_true {memory : Memory} {counter : Nat} {yes : String} {rest : List Statement}
    (held : Holds code symbols (counter + 12) (aimTrue yes ++ .store .onlyM .minusOne :: rest))
    (fixed : Fixed symbols) (a d : Word) :
    Machine.Path code counter (counter + 15) ⟨memory, counter + 12, a, d⟩
      ⟨memory.rewrite fun _ => -1, counter + 15, memory.topCell, d⟩ := by
  rw [holds_append] at held
  have aimed : (aimTrue yes).foldl (perform symbols) ⟨memory, counter + 12, a, d⟩ =
      ⟨memory, counter + 14, memory.topCell, d⟩ := by
    simp [aimTrue, fixed.stack, Computation.value, Computation.value.pick, Memory.topCell]
  refine Machine.Path.straight held.1 (List.all_eq_true.mp rfl) (Nat.le_add_right ..)
    (Nat.add_lt_add_left (by decide : 14 < 15) counter) ?_
  rw [aimed]
  exact .last (@step_transfer code symbols ⟨_, counter + 14, _, _⟩ _ _ _ _ held.2)

theorem foldl_difference (fixed : Fixed symbols) (memory : Memory) (counter : Nat) (a d : Word)
    (yes : String) :
    (difference yes).foldl (perform symbols) ⟨memory, counter, a, d⟩ =
      ⟨memory.drop, counter + 6, symbols yes,
        memory.drop.read (memory.topCell - 1) - memory.popped⟩ := by
  simp [difference, foldl_popData, fixed, Computation.value, Computation.value.pick,
    Computation.value.other]

theorem leaves_decision {yes done : String} {jump : Jump}
    (held : Holds code symbols first (decision yes done jump)) (fixed : Fixed symbols)
    (yesAddress : (symbols yes).toNat = first + 12)
    (doneAddress : (symbols done).toNat = first + 15) :
    Leaves code first (first + 15) before
      (before.combine fun under top => truth (jump.taken (under - top))) := by
  rintro ⟨memory, counter, a, d⟩ rfl rfl
  simp only at held yesAddress doneAddress ⊢
  rw [decision, holds_append] at held
  have later : Holds code symbols (counter + 7) _ := held.2.2
  have last : Holds code symbols (counter + 12) _ := (holds_append.mp later).2.2
  have compared := foldl_difference fixed memory counter a d yes
  have meaning : (memory.combine fun under top => truth (jump.taken (under - top))) =
      memory.drop.rewrite fun _ =>
        truth (jump.taken (memory.drop.read (memory.topCell - 1) - memory.popped)) := by
    simp only [Memory.combine, Memory.rewrite, Memory.topCell, Memory.read_stack_drop]
  rw [meaning]
  generalize memory.drop.read (memory.topCell - 1) - memory.popped = gap at compared ⊢
  have branched := @step_transfer code symbols ⟨memory.drop, counter + 6, symbols yes, gap⟩
    _ _ _ _ held.2
  have executes : ∀ {middle result : Machine},
      transfer ⟨memory.drop, counter + 6, symbols yes, gap⟩ .none (.copy .d) jump = middle →
      Inside counter (counter + 15) middle →
      Machine.Path code counter (counter + 15) middle result → result.counter = counter + 15 →
      Executes code counter (counter + 15) ⟨memory, counter, a, d⟩ result := by
    rintro middle result rfl inside path reached
    refine ⟨rfl, .inr ⟨by omega, ?_, fun still => ?_⟩⟩
    · refine Machine.Path.straight held.1 (List.all_eq_true.mp rfl) (Nat.le_refl _)
        (Nat.add_lt_add_left (by decide : 6 < 15) counter) ?_
      rw [compared]
      exact .next branched inside path
    · have below := still.2
      omega
  cases taken : jump.taken gap with
  | true =>
    refine ⟨_, executes ?_ ⟨?_, ?_⟩ (path_true last fixed (symbols yes) gap) rfl, rfl, rfl⟩
    · simp [transfer, Machine.store, Computation.value, Computation.value.pick, taken, yesAddress,
        Destination.none]
    all_goals simp
  | false =>
    refine ⟨_, executes ?_ ⟨?_, ?_⟩ (path_false later fixed doneAddress (symbols yes) gap) rfl, rfl,
      rfl⟩
    · simp [transfer, Machine.store, Computation.value, Computation.value.pick, taken,
        Destination.none]
    all_goals simp

/-- The two labels of a comparison stand behind its twelfth and its last instruction. -/
theorem resolved_compare {count : Nat} {jump : Jump}
    (resolved : Resolved symbols first (compare count jump)) :
    (symbols ("TRUE_" ++ count.repr)).toNat = first + 12 ∧
      (symbols ("END_" ++ count.repr)).toNat = first + 15 := by
  constructor
  · exact resolved (difference ("TRUE_" ++ count.repr) ++ .jump (.copy .d) jump ::
      (writeFalse ("END_" ++ count.repr) ++ [.jump .zero .always])) _ _ rfl
  · exact resolved (difference ("TRUE_" ++ count.repr) ++ .jump (.copy .d) jump ::
      (writeFalse ("END_" ++ count.repr) ++ .jump .zero .always ::
        (aimTrue ("TRUE_" ++ count.repr) ++ [.store .onlyM .minusOne]))) _ [] rfl

theorem leaves_compare {count : Nat} {jump : Jump}
    (held : Holds code symbols first (compare count jump)) (fixed : Fixed symbols)
    (resolved : Resolved symbols first (compare count jump)) :
    Leaves code first (first + size (compare count jump)) before
      (before.combine fun under top => truth (jump.taken (under - top))) := by
  obtain ⟨yes, done⟩ := resolved_compare resolved
  exact leaves_decision held fixed yes done

theorem leaves_operation {count : Nat} {operation : Operation}
    (held : Holds code symbols first (Code.operation count operation)) (fixed : Fixed symbols)
    (resolved : Resolved symbols first (Code.operation count operation)) :
    Leaves code first (first + size (Code.operation count operation)) before
      (operation.apply before) := by
  cases operation with
  | not | neg => exact leaves_unary held fixed fun _ _ _ => rfl
  | sub => exact leaves_binary held fixed fun _ _ _ => rfl
  | add => exact leaves_binary held fixed fun _ d m => BitVec.add_comm d m
  | and => exact leaves_binary held fixed fun _ d m => BitVec.and_comm d m
  | or => exact leaves_binary held fixed fun _ d m => BitVec.or_comm d m
  | eq | gt | lt => exact leaves_compare held fixed resolved

def saveBase (base : String) : List Statement :=
  [.symbol base, .store .onlyD (.copy .m)] ++ pushData

def setBases (arguments : Nat) : List Statement :=
  [.symbol "SP", .store .onlyD (.copy .m), .number (arguments + 5), .store .onlyD (.subtract .a),
   .symbol "ARG", .store .onlyM (.copy .d), .symbol "SP", .store .onlyD (.copy .m),
   .symbol "LCL", .store .onlyM (.copy .d)]

def saveCaller (returnSymbol : String) : List Statement :=
  [.symbol returnSymbol, .store .onlyD (.copy .a)] ++ pushData ++ saveBase "LCL" ++
    saveBase "ARG" ++ saveBase "THIS" ++ saveBase "THAT"

def callBody (returnSymbol name : String) (arguments : Nat) : List Statement :=
  saveCaller returnSymbol ++ setBases arguments ++ [.symbol name]

theorem call_eq (returnSymbol name : String) (arguments : Nat) :
    call returnSymbol name arguments =
      callBody returnSymbol name arguments ++ .jump .zero .always :: [.label returnSymbol] := rfl

theorem foldl_saveBase (fixed : Fixed symbols) {memory : Memory}
    (free : memory.read Cell.stack ≠ Cell.stack) (base : String) (counter : Nat) (a d : Word) :
    (saveBase base).foldl (perform symbols) ⟨memory, counter, a, d⟩ =
      ⟨memory.save (symbols base), counter + 6, memory.read Cell.stack,
        memory.read (symbols base)⟩ := by
  simp only [saveBase, List.foldl_append, List.foldl_cons, List.foldl_nil, perform_symbol,
    perform_onlyD, foldl_pushData _ _ _ _ fixed.stack free]
  rfl

theorem foldl_saveCaller (fixed : Fixed symbols) {memory : Memory} (room : memory.Room 5)
    (returnSymbol : String) (counter : Nat) (a d : Word) :
    ∃ a' d', (saveCaller returnSymbol).foldl (perform symbols) ⟨memory, counter, a, d⟩ =
      ⟨memory.saveFrame (symbols returnSymbol), counter + 30, a', d'⟩ := by
  have one := room.push (symbols returnSymbol)
  have two := one.save Cell.locals
  have three := two.save Cell.arguments
  have four := three.save Cell.this
  simp only [saveCaller, List.foldl_append, List.foldl_cons, List.foldl_nil, perform_symbol,
    perform_onlyD, Computation.value, Computation.value.pick,
    foldl_pushData _ _ _ _ fixed.stack room.free]
  rw [foldl_saveBase fixed one.free, fixed.locals, foldl_saveBase fixed two.free, fixed.arguments,
    foldl_saveBase fixed three.free, fixed.this, foldl_saveBase fixed four.free, fixed.that]
  exact ⟨_, _, rfl⟩

theorem memory_foldl_setBases (fixed : Fixed symbols) (memory : Memory) (arguments counter : Nat)
    (a d : Word) :
    let based := memory.write Cell.arguments
      (memory.read Cell.stack - BitVec.ofNat 16 (arguments + 5))
    ((setBases arguments).foldl (perform symbols) ⟨memory, counter, a, d⟩).memory =
      based.write Cell.locals (based.read Cell.stack) := by
  simp [setBases, Computation.value, Computation.value.pick, Computation.value.other,
    fixed.stack, fixed.arguments, fixed.locals]

theorem performs_call {returnSymbol name : String} {arguments next : Nat}
    (held : Holds code symbols first (call returnSymbol name arguments)) (fixed : Fixed symbols)
    (room : before.Room 5) (target : (symbols name).toNat = next)
    (outside : ¬ (first < next ∧ next < first + size (call returnSymbol name arguments))) :
    Performs code first (first + size (call returnSymbol name arguments)) before next
      (before.enter (symbols returnSymbol) arguments) := by
  rw [call_eq] at held outside ⊢
  refine performs_jump held rfl rfl outside fun a d => ?_
  obtain ⟨a, d, saved⟩ := foldl_saveCaller fixed room returnSymbol first a d
  simp only [callBody, List.foldl_append, saved, List.foldl_cons, List.foldl_nil, perform_symbol]
  refine ⟨?_, target⟩
  rw [memory_foldl_setBases fixed]
  exact Agree.refl _

def noteFrame : List Statement :=
  [.symbol "LCL", .store .onlyD (.copy .m), .symbol "R13", .store .onlyM (.copy .d), .number 5,
   .store .onlyA (.subtract .a), .store .onlyD (.copy .m), .symbol "R14",
   .store .onlyM (.copy .d)]

def storeResult : List Statement :=
  [.symbol "ARG", .store .onlyA (.copy .m), .store .onlyM (.copy .d), .symbol "ARG",
   .store .onlyD (.increment .m), .symbol "SP", .store .onlyM (.copy .d)]

def retBody : List Statement :=
  noteFrame ++ popData ++ storeResult ++ restore "THAT" ++ restore "THIS" ++ restore "ARG" ++
    restore "LCL" ++ [.symbol "R14", .store .onlyA (.copy .m)]

theorem ret_eq : ret = retBody ++ [.jump .zero .always] := rfl

/-- On the way through a return: `memory` is `meant` outside the scratch cells, which hold the
position in the caller's frame and the return address. -/
structure Unwinding (memory meant : Memory) (cursor landing : Word) : Prop where
  agree : Agree memory meant
  cursor : memory.read Cell.frame = cursor
  landing : memory.read Cell.landing = landing

theorem Unwinding.write {memory meant : Memory} {cursor landing cell : Word}
    (unwinding : Unwinding memory meant cursor landing) (clear : ¬ Scratch cell) (value : Word) :
    Unwinding (memory.write cell value) (meant.write cell value) cursor landing := by
  refine ⟨unwinding.agree.write fun _ => rfl, ?_, ?_⟩
  · rw [Memory.read_write_of_ne _ _ fun equal => clear (.inl equal.symm), unwinding.cursor]
  · rw [Memory.read_write_of_ne _ _ fun equal => clear (.inr equal.symm), unwinding.landing]

theorem Unwinding.handOver {memory meant : Memory} {cursor landing : Word}
    (unwinding : Unwinding memory meant cursor landing) (clear : meant.Returns) :
    Unwinding memory.handOver meant.handOver cursor landing := by
  have target : memory.read Cell.arguments = meant.read Cell.arguments :=
    unwinding.agree _ (by decide)
  have dropped : Unwinding memory.drop meant.drop cursor landing := by
    unfold Memory.drop
    rw [unwinding.agree.stack]
    exact unwinding.write (by decide) _
  have stored : Unwinding (memory.popInto (memory.read Cell.arguments))
      (meant.popInto (meant.read Cell.arguments)) cursor landing := by
    unfold Memory.popInto
    rw [target, unwinding.agree.popped clear.top]
    exact dropped.write clear.result _
  simp only [Memory.handOver, stored.agree Cell.arguments (by decide)]
  exact stored.write (by decide) _

theorem Unwinding.restore {memory meant : Memory} {cursor landing base : Word}
    (unwinding : Unwinding memory meant cursor landing) (register : ¬ Scratch base)
    (clear : ¬ Scratch (cursor - 1)) :
    Unwinding ((memory.write Cell.frame (cursor - 1)).restore base (cursor - 1))
      (meant.restore base (cursor - 1)) (cursor - 1) landing := by
  have moved : Unwinding (memory.write Cell.frame (cursor - 1)) meant (cursor - 1) landing := by
    refine ⟨unwinding.agree.write_scratch (by decide) _, Memory.read_write_self .., ?_⟩
    rw [Memory.read_write_of_ne _ _ (by decide), unwinding.landing]
  unfold Memory.restore
  rw [moved.agree _ clear]
  exact moved.write register _

theorem unwinding_noteFrame (fixed : Fixed symbols) (machine : Machine)
    (clear : machine.memory.Returns) :
    Unwinding (noteFrame.foldl (perform symbols) machine).memory machine.memory
      (machine.memory.read Cell.locals) machine.memory.returnAddress := by
  obtain ⟨memory, counter, a, d⟩ := machine
  have address : (memory.write Cell.frame (memory.read Cell.locals)).read
      (memory.read Cell.locals - 5) = memory.returnAddress :=
    Memory.read_write_of_ne _ _ fun equal => clear.saved 5 (by decide) (.inl equal)
  have noted : (noteFrame.foldl (perform symbols) ⟨memory, counter, a, d⟩).memory =
      (memory.write Cell.frame (memory.read Cell.locals)).write Cell.landing
        memory.returnAddress := by
    rw [← address]
    simp [noteFrame, fixed.locals, fixed.frame, fixed.landing, Computation.value,
      Computation.value.pick, Computation.value.other]
  rw [noted]
  refine ⟨?_, ?_, Memory.read_write_self ..⟩
  · exact ((Agree.refl memory).write_scratch (by decide) _).write_scratch (by decide) _
  · rw [Memory.read_write_of_ne _ _ (by decide), Memory.read_write_self]

theorem memory_storeResult (fixed : Fixed symbols) (machine : Machine) :
    (storeResult.foldl (perform symbols) (popData.foldl (perform symbols) machine)).memory =
      machine.memory.handOver := by
  obtain ⟨memory, counter, a, d⟩ := machine
  have target : memory.drop.read Cell.arguments = memory.read Cell.arguments :=
    Memory.read_write_of_ne _ _ (by decide)
  simp [storeResult, foldl_popData, fixed, fixed.arguments, fixed.stack, Computation.value,
    Computation.value.pick, target, Memory.handOver, Memory.popInto]

theorem unwinding_restore (fixed : Fixed symbols) {machine : Machine} {meant : Memory}
    {cursor next landing base : Word} {name : String}
    (unwinding : Unwinding machine.memory meant cursor landing) (value : symbols name = base)
    (register : ¬ Scratch base) (down : cursor - 1 = next) (clear : ¬ Scratch next) :
    Unwinding ((restore name).foldl (perform symbols) machine).memory
      (meant.restore base next) next landing := by
  subst down
  obtain ⟨memory, counter, a, d⟩ := machine
  have moved : ((restore name).foldl (perform symbols) ⟨memory, counter, a, d⟩).memory =
      (memory.write Cell.frame (cursor - 1)).restore base (cursor - 1) := by
    have position : memory.read Cell.frame = cursor := unwinding.cursor
    simp [restore, fixed.frame, value, Computation.value, Computation.value.pick, position,
      Memory.restore]
  rw [moved]
  exact unwinding.restore register clear

theorem performs_ret {next : Nat} (held : Holds code symbols first ret) (fixed : Fixed symbols)
    (clear : before.Returns) (target : before.returnAddress.toNat = next)
    (outside : ¬ (first < next ∧ next < first + size ret)) :
    Performs code first (first + size ret) before next before.leave := by
  rw [ret_eq] at held outside ⊢
  refine performs_jump held rfl rfl outside fun a d => ?_
  have noted := unwinding_noteFrame fixed ⟨before, first, a, d⟩ clear
  have handed := noted.handOver clear
  rw [← memory_storeResult fixed] at handed
  have one := unwinding_restore fixed handed fixed.that (by decide) rfl
    (clear.saved 1 (by decide))
  have two := unwinding_restore fixed one fixed.this (by decide) (by bv_omega)
    (clear.saved 2 (by decide))
  have three := unwinding_restore fixed two fixed.arguments (by decide) (by bv_omega)
    (clear.saved 3 (by decide))
  have four := unwinding_restore fixed three fixed.locals (by decide) (by bv_omega)
    (clear.saved 4 (by decide))
  simp only [← List.foldl_append] at four
  rw [retBody, List.foldl_append]
  generalize List.foldl (perform symbols) ⟨before, first, a, d⟩ _ = reached at four ⊢
  obtain ⟨memory, counter, a, d⟩ := reached
  refine ⟨four.agree, ?_⟩
  simp only [List.foldl_cons, List.foldl_nil, perform_symbol, fixed.landing]
  exact (congrArg BitVec.toNat four.landing).trans target

end Code
end HackStack
