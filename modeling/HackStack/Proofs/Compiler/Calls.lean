import HackStack.Proofs.Compiler.Simulation
import HackStack.Proofs.Reference.Frames

/-! Calls are transparent to the caller. A balanced execution matches every inner call with its own
return; between a call and its return it keeps the caller's frame, and the return gives it back. -/
namespace HackStack
open Assembly Machine Reference

namespace Command

def isPlain : Command → Bool
  | .call .. | .ret => false
  | _ => true

/-- How many cells on top of the stack a command pops, rewrites or, in a call, hands over. -/
def operands : Command → Nat
  | .arithmetic mnemonic =>
    match Operation.ofMnemonic? mnemonic with
    | some .neg | some .not => 1
    | _ => 2
  | .pop .. | .ifGoto _ | .ret => 1
  | .call _ arguments => arguments.toNat
  | _ => 0

end Command

/-- The cells to which a command stores through a pop. -/
def stores (symbols : String → Word) (generator : Generator) (memory : Memory) :
    Command → List Word
  | .pop segment index => (cell? symbols generator memory index segment).toList
  | _ => []

/-- The registers that a pop has to leave alone, and the five saved cells of active frames. -/
def Protected (frames : List Nat) (cell : Word) : Prop :=
  cell ∈ [Cell.stack, Cell.locals, Cell.arguments, Cell.frame, Cell.landing] ∨
    ∃ frame ∈ frames, frame - 5 ≤ cell.toNat ∧ cell.toNat < frame

namespace Image

def Runs (image : Image) (index : Nat) (before after : Machine) : Prop :=
  Executes image.program.code (image.address index) (image.address (index + 1)) before after

/-- Every label that a jump or a call refers to is declared. -/
def Resolves (image : Image) : Prop :=
  ∀ site ∈ image.sites, ∀ name, site.target? = some name → name ∈ labels (codeOf image.sites)

/-- No jump or call whose execution ends goes strictly into its own code. -/
def Leaves (image : Image) : Prop :=
  ∀ (index : Nat) (site : Site) (name : String) (before after : Machine),
    image.sites[index]? = some site → site.target? = some name →
    image.Runs index before after →
    ¬ (image.address index < (image.program.value name).toNat ∧
      (image.program.value name).toNat < image.address (index + 1))

end Image

/-- A command keeps to its frame: its operands lie at or above the locals' base, the stack pointer
ends in range, and it stores to no protected cell. -/
structure Admits (image : Image) (frames : List Nat) (generator : Generator) (command : Command)
    (before after : Memory) : Prop where
  operands : (before.read Cell.locals).toNat + command.operands ≤ (before.read Cell.stack).toNat
  bounded : (after.read Cell.stack).toNat ≤ 32767
  stores : ∀ cell ∈ stores image.program.value generator before command, ¬ Protected frames cell

/-- Executions of whole commands in which every call is matched by its own return, to any depth. The
frames are those that are active, innermost first; the cells are those that pops stored to. -/
inductive Balanced (image : Image) : List Nat → List Word → Machine → Machine → Prop
  | done (frames : List Nat) (machine : Machine) : Balanced image frames [] machine machine
  | command {index : Nat} {generator : Generator} {command : Command} {frames : List Nat}
      {stored : List Word} {before middle after : Machine}
      (here : image.sites[index]? = some (.compiled generator command))
      (plain : command.isPlain = true) (runs : image.Runs index before middle)
      (admits : Admits image frames generator command before.memory middle.memory)
      (rest : Balanced image frames stored middle after) :
      Balanced image frames
        (stores image.program.value generator before.memory command ++ stored) before after
  | call {index last : Nat} {generator callee : Generator} {name : String} {arguments : Word}
      {frames : List Nat} {inner stored : List Word}
      {before entered left resumed after : Machine}
      (here : image.sites[index]? = some (.compiled generator (.call name arguments)))
      (enters : image.Runs index before entered)
      (admits : Admits image frames generator (.call name arguments) before.memory entered.memory)
      (body : Balanced image (((before.memory.read Cell.stack).toNat + 5) :: frames) inner entered
        left)
      (there : image.sites[last]? = some (.compiled callee .ret))
      (leaves : image.Runs last left resumed)
      (returns : Admits image (((before.memory.read Cell.stack).toNat + 5) :: frames) callee .ret
        left.memory resumed.memory)
      (rest : Balanced image frames stored resumed after) :
      Balanced image frames (inner ++ stored) before after

theorem Protected.weaken {frames : List Nat} {cell : Word} (frame : Nat)
    (guarded : Protected frames cell) : Protected (frame :: frames) cell := by
  rcases guarded with register | ⟨other, member, inside⟩
  · exact .inl register
  · exact .inr ⟨other, List.mem_cons_of_mem _ member, inside⟩

theorem Balanced.not_protected {image : Image} {frames : List Nat} {stored : List Word}
    {before after : Machine} (balanced : Balanced image frames stored before after) :
    ∀ cell ∈ stored, ¬ Protected frames cell := by
  induction balanced with
  | done => exact fun _ member => absurd member List.not_mem_nil
  | command _ _ _ admits _ ih =>
    intro cell member
    rcases List.mem_append.mp member with first | later
    · exact admits.stores cell first
    · exact ih cell later
  | call _ _ _ _ _ _ _ _ inside ih =>
    intro cell member guarded
    rcases List.mem_append.mp member with inner | later
    · exact inside cell inner (guarded.weaken _)
    · exact ih cell later guarded

namespace Image

variable {image : Image} {index : Nat}

/-- A declared label does not lie strictly inside code that does not declare it. -/
theorem declared_outside {site : Site} {name : String} (here : image.sites[index]? = some site)
    (declared : name ∈ labels (codeOf image.sites)) (foreign : .label name ∉ site.code) :
    ¬ (image.address index < (image.program.value name).toNat ∧
      (image.program.value name).toNat < image.address (index + 1)) := by
  obtain ⟨other, member, inside⟩ := List.mem_flatMap.mp (mem_labels.mp declared)
  obtain ⟨place, there⟩ := List.mem_iff_getElem?.mp member
  obtain ⟨head, tail, shape⟩ := List.append_of_mem inside
  have value := resolved_site there head name tail shape
  have next := address_succ there
  rw [shape, size_append] at next
  rcases Nat.lt_trichotomy place index with order | rfl | order
  · have above : image.address (place + 1) ≤ image.address index := image.address_mono order
    omega
  · rw [here] at there
    cases there
    exact absurd inside foreign
  · have below : image.address (index + 1) ≤ image.address place := image.address_mono order
    omega

/-- Where all labels resolve, every target is declared, and no code declares its own target except
at its end. -/
theorem Resolves.leaves (resolves : image.Resolves) : image.Leaves := by
  intro index site name _ _ here target _
  have member := List.mem_of_getElem? here
  have declared := resolves site member name target
  unfold Site.target? at target
  split at target
  · cases target
    refine declared_outside here declared ?_
    simp [Site.code, Generator.code, Code.goto, Statement.symbol, Statement.jump]
  · cases target
    refine declared_outside here declared ?_
    simp [Site.code, Generator.code, Code.ifGoto, Code.popData, Statement.symbol, Statement.store,
      Statement.jump]
  · rename_i generator callee arguments
    cases target
    by_cases own : name = generator.returnSymbol
    · rw [own, value_returnSymbol here, landing]
      exact fun inside => absurd inside.2 (Nat.not_lt.mpr
        (Nat.le_of_eq (image.address_toNat (index + 1)).symm))
    · refine declared_outside here declared ?_
      obtain ⟨code, generated⟩ := image.accepted _ member
      obtain ⟨count, -, result⟩ := bind_ok generated
      cases result
      rw [Site.code_of_ok generated]
      simp [Code.call, Code.pushData, Statement.symbol, Statement.store, Statement.jump,
        Statement.number, own]
  · cases target

instance : Coe image.Resolves image.Leaves := ⟨Resolves.leaves⟩

theorem Runs.agree {before after : Machine} {next : Nat} {memory : Memory}
    (runs : image.Runs index before after)
    (performs : Performs image.program.code (image.address index) (image.address (index + 1))
      before.memory next memory) :
    after.counter = next ∧ Agree after.memory memory := by
  obtain ⟨result, executed, counter, agree⟩ := performs before runs.1 rfl
  obtain rfl := runs.unique executed
  exact ⟨counter, agree⟩

/-- Locals take up four instructions each, so that a function has few of them. -/
theorem locals_bound {generator : Generator} {name : String} {locals : Word}
    (here : image.sites[index]? = some (.compiled generator (.function name locals))) :
    4 * locals.toNat ≤ 32767 := by
  have fits := image.address_le (index + 1)
  have length : ∀ count, size (List.replicate count Code.pushZero).flatten = 4 * count := by
    intro count
    induction count with
    | zero => rfl
    | succ count ih =>
      have four : size Code.pushZero = 4 := rfl
      rw [List.replicate_succ, List.flatten_cons, size_append, ih, four]
      omega
  have code : size (Site.compiled generator (.function name locals)).code = 4 * locals.toNat := by
    change size (.label name :: (List.replicate locals.toNat Code.pushZero).flatten) = _
    rw [size_cons, length]
    exact Nat.zero_add _
  rw [address_succ here, code] at fits
  simp only [maxConstant] at fits
  omega

theorem Runs.act {generator : Generator} {command : Command} {result : State}
    {before after : Machine} (runs : image.Runs index before after)
    (here : image.sites[index]? = some (.compiled generator command))
    (safe : Safe before.memory (.compiled generator command))
    (taken : Reference.act image.sites image.program.value index before.memory generator command =
      some result) : Agree after.memory result.memory := by
  have taken : Reference.step image.sites image.program.value ⟨index, before.memory⟩ =
      some result := by
    simpa only [Reference.step, here, Option.bind_some] using taken
  exact (runs.agree (@performs_step image ⟨index, before.memory⟩ _ _ here safe taken)).2

theorem runs_arithmetic {generator : Generator} {mnemonic : String} {frame : Nat}
    {before after : Machine}
    (here : image.sites[index]? = some (.compiled generator (.arithmetic mnemonic)))
    (runs : image.Runs index before after) (high : 256 ≤ frame)
    (operands : frame + (Command.arithmetic mnemonic).operands ≤
      (before.memory.read Cell.stack).toNat) :
    Keeps frame [] before.memory after.memory := by
  obtain ⟨code, generated⟩ := image.accepted _ (List.mem_of_getElem? here)
  cases found : Operation.ofMnemonic? mnemonic with
  | none => simp [Generator.code, found] at generated
  | some operation =>
    have agree := @Runs.act _ _ _ _ ⟨index + 1, operation.apply before.memory⟩ _ _ runs here trivial
      (by simp only [Reference.act, found, Option.map_some])
    simp only [Command.operands, found] at operands
    cases operation with
    | not | neg => exact (keeps_rewrite (by omega) operands _).agree agree
    | add | sub | and | or | eq | gt | lt =>
      exact (keeps_combine (by omega) operands _).agree agree

theorem runs_pop {generator : Generator} {segment : Segment} {offset : Word} {frame : Nat}
    {before after : Machine}
    (here : image.sites[index]? = some (.compiled generator (.pop segment offset)))
    (runs : image.Runs index before after) (high : 256 ≤ frame)
    (operand : frame + 1 ≤ (before.memory.read Cell.stack).toNat)
    (apart : Cell.stack ∉ stores image.program.value generator before.memory
      (.pop segment offset)) :
    Keeps frame (stores image.program.value generator before.memory (.pop segment offset))
      before.memory after.memory := by
  obtain ⟨code, generated⟩ := image.accepted _ (List.mem_of_getElem? here)
  obtain ⟨place, placed, -⟩ := bind_ok generated
  obtain ⟨cell, found⟩ := Option.isSome_iff_exists.mp
    (@isSome_cell? image.program.value _ _ _ _ placed before.memory)
  have stored : stores image.program.value generator before.memory (.pop segment offset) =
      [cell] := by
    simp only [stores, found, Option.toList_some]
  rw [stored] at apart ⊢
  have top : ¬ Scratch before.memory.topCell := by
    apply not_scratch_of_le
    rw [Memory.topCell]
    bv_omega
  have agree := @Runs.act _ _ _ _ ⟨index + 1, before.memory.popInto cell⟩ _ _ runs here top
    (by simp only [Reference.act, found, Option.map_some])
  refine (keeps_popInto operand fun equal => ?_).agree agree
  exact apart (List.mem_singleton.mpr equal.symm)

/-- A command other than a call and a return keeps what lies below its frame. -/
theorem runs_plain {generator : Generator} {command : Command} {frames : List Nat} {frame : Nat}
    {before after : Machine} (leaves : image.Leaves)
    (here : image.sites[index]? = some (.compiled generator command))
    (plain : command.isPlain = true) (runs : image.Runs index before after)
    (admits : Admits image frames generator command before.memory after.memory)
    (high : 256 ≤ frame) (locals : (before.memory.read Cell.locals).toNat = frame)
    (low : frame ≤ (before.memory.read Cell.stack).toNat)
    (bounded : (before.memory.read Cell.stack).toNat ≤ 32767) :
    Keeps frame (stores image.program.value generator before.memory command) before.memory
      after.memory := by
  have operands := admits.operands
  rw [locals] at operands
  have room : ∀ count, count ≤ 32767 → before.memory.Room count := fun count few =>
    Memory.room_of_fits rfl (by omega) (by omega)
  cases command with
  | call | ret => cases plain
  | arithmetic mnemonic => exact runs_arithmetic here runs high operands
  | push segment offset =>
    obtain ⟨value, found⟩ := Option.isSome_iff_exists.mp
      (isSome_value? image.program.value generator before.memory segment offset)
    have agree := @Runs.act _ _ _ _ ⟨index + 1, before.memory.push value⟩ _ _ runs here
      (room 1 (by decide)) (by simp only [Reference.act, found, Option.map_some])
    exact (@keeps_pushAll frame before.memory [value] (by omega) low (by simp; omega)).agree agree
  | pop segment offset =>
    refine runs_pop here runs high operands fun stored => ?_
    exact admits.stores Cell.stack stored (.inl List.mem_cons_self)
  | label name => exact (Keeps.mk low fun _ _ _ _ _ => rfl).agree (runs.act here trivial rfl)
  | goto name =>
    have outside := leaves _ _ _ _ _ here rfl runs
    exact (Keeps.mk low fun _ _ _ _ _ => rfl).agree
      (runs.agree (performs_goto here rfl outside)).2
  | ifGoto name =>
    have outside := leaves _ _ _ _ _ here rfl runs
    refine (keeps_drop operands).agree ?_
    by_cases zero : before.memory.popped = 0
    · exact (runs.agree (performs_ifGoto here (absurd zero) (fun _ => rfl)
        (image.not_inside index (index + 1)))).2
    · exact (runs.agree (performs_ifGoto here (fun _ => rfl) (fun equal => absurd equal zero)
        outside)).2
  | function name locals =>
    have few := locals_bound here
    have agree := @Runs.act _ _ _ _ ⟨index + 1, before.memory.pushZeros locals.toNat⟩ _ _ runs here
      (room locals.toNat (by omega)) rfl
    rw [Memory.pushZeros_eq_pushAll] at agree
    refine (@keeps_pushAll frame before.memory _ (by omega) low ?_).agree agree
    rw [List.length_replicate]
    omega

theorem Runs.entered {generator : Generator} {name : String} {arguments pointer : Word}
    {before entered : Machine} (leaves : image.Leaves)
    (here : image.sites[index]? = some (.compiled generator (.call name arguments)))
    (enters : image.Runs index before entered)
    (points : before.memory.read Cell.stack = pointer) (low : 256 ≤ pointer.toNat)
    (bounded : pointer.toNat ≤ 32767) :
    Memory.Entered before.memory entered.memory pointer (landing image.sites index)
      arguments.toNat := by
  have outside := leaves _ _ _ _ _ here rfl enters
  have room : before.memory.Room 5 := Memory.room_of_fits points (by omega) (by omega)
  exact (Memory.entered_enter points (by omega) (by omega) _ _).agree
    (enters.agree (performs_call here room rfl outside)).2 low (by omega)

end Image

/-- What a caller finds when its call has returned. -/
structure Returned (image : Image) (index : Nat) (pointer count : Word) (stored : List Word)
    (before left after : Machine) : Prop where
  counter : after.counter = image.address (index + 1)
  stack : after.memory.read Cell.stack = pointer - count + 1
  result : after.memory.read (pointer - count) =
    left.memory.read (left.memory.read Cell.stack - 1)
  locals : after.memory.read Cell.locals = before.memory.read Cell.locals
  arguments : after.memory.read Cell.arguments = before.memory.read Cell.arguments
  this : after.memory.read Cell.this = before.memory.read Cell.this
  that : after.memory.read Cell.that = before.memory.read Cell.that
  below : ∀ cell, cell.toNat < pointer.toNat - count.toNat →
    cell ∉ [Cell.stack, Cell.frame, Cell.landing] → cell ∉ stored →
    after.memory.read cell = before.memory.read cell

namespace Image

variable {image : Image} {index : Nat}

/-- What a return needs: the bases that the call set and the frame that it saved. -/
structure Framed (caller memory : Memory) (pointer count landing : Word) : Prop where
  locals : memory.read Cell.locals = pointer + 5
  arguments : memory.read Cell.arguments = pointer - count
  saved : ∀ (position : Nat) (value : Word), (caller.frameCells landing)[position]? = some value →
    memory.read (pointer + BitVec.ofNat 16 position) = value

/-- A body that keeps to its frame leaves the frame as the call made it. -/
theorem framed {caller opened memory : Memory} {pointer count landing : Word} {frames : List Nat}
    {stored : List Word} (frame : Memory.Entered caller opened pointer landing count.toNat)
    (low : 256 ≤ pointer.toNat) (bounded : pointer.toNat ≤ 32767)
    (kept : Keeps (pointer.toNat + 5) stored opened memory)
    (guarded : ∀ cell ∈ stored, ¬ Protected ((pointer.toNat + 5) :: frames) cell) :
    Framed caller memory pointer count landing := by
  refine ⟨?_, ?_, ?_⟩
  · rw [← frame.locals]
    refine kept.cells _ (Nat.lt_of_lt_of_le (by decide : Cell.locals.toNat < 256) (by omega))
      (by decide) (by decide) fun member => guarded _ member (.inl (by simp))
  · have unchanged : memory.read Cell.arguments = opened.read Cell.arguments :=
      kept.cells _ (Nat.lt_of_lt_of_le (by decide : Cell.arguments.toNat < 256) (by omega))
        (by decide) (by decide) fun member => guarded _ member (.inl (by simp))
    rw [unchanged, frame.arguments, BitVec.ofNat_toNat, BitVec.setWidth_eq]
  · intro position value found
    have bound : position < 5 := (List.getElem?_eq_some_iff.mp found).1
    have high : pointer.toNat ≤ (pointer + BitVec.ofNat 16 position).toNat ∧
        (pointer + BitVec.ofNat 16 position).toNat < pointer.toNat + 5 := by bv_omega
    have apart : pointer + BitVec.ofNat 16 position ≠ Cell.stack := by
      simp only [Cell.stack]
      bv_omega
    rw [← frame.saved position value found]
    exact kept.cells _ high.2 apart (not_scratch_of_le (by omega)) fun member =>
      guarded _ member (.inr ⟨_, List.mem_cons_self, by omega, high.2⟩)

theorem Framed.returns {caller memory : Memory} {pointer count landing : Word}
    (framed : Framed caller memory pointer count landing)
    (room : 256 + count.toNat ≤ pointer.toNat) (bounded : pointer.toNat ≤ 32767)
    (operand : pointer.toNat + 6 ≤ (memory.read Cell.stack).toNat) : memory.Returns := by
  refine ⟨?_, ?_, ?_⟩
  · apply not_scratch_of_le
    rw [Memory.topCell]
    bv_omega
  · rw [framed.arguments]
    apply not_scratch_of_le
    bv_omega
  · intro offset member
    rw [framed.locals]
    apply not_scratch_of_le
    simp only [List.mem_cons, List.not_mem_nil, or_false] at member
    rcases member with rfl | rfl | rfl | rfl | rfl <;> bv_omega

theorem Framed.performs {callee : Generator} {caller memory : Memory} {pointer count : Word}
    {last : Nat} (framed : Framed caller memory pointer count (landing image.sites index))
    (room : 256 + count.toNat ≤ pointer.toNat) (bounded : pointer.toNat ≤ 32767)
    (operand : pointer.toNat + 6 ≤ (memory.read Cell.stack).toNat)
    (there : image.sites[last]? = some (.compiled callee .ret)) :
    Performs image.program.code (image.address last) (image.address (last + 1)) memory
      (image.address (index + 1)) memory.leave := by
  have landed : memory.returnAddress = landing image.sites index := by
    rw [Memory.returnAddress, framed.locals, ← framed.saved 0 _ rfl]
    congr 1
    bv_omega
  exact performs_ret there (framed.returns room bounded operand)
    (landed ▸ image.address_toNat (index + 1)) (image.not_inside last (index + 1))

/-- A return that finds its frame as the call made it gives everything back. -/
theorem returned {callee : Generator} {count pointer : Word} {stored : List Word}
    {before left after : Machine} {opened : Memory} {last : Nat}
    (frame : Memory.Entered before.memory opened pointer (landing image.sites index) count.toNat)
    (kept : Keeps (pointer.toNat + 5) stored opened left.memory)
    (found : Framed before.memory left.memory pointer count (landing image.sites index))
    (room : 256 + count.toNat ≤ pointer.toNat) (bounded : pointer.toNat ≤ 32767)
    (operand : pointer.toNat + 6 ≤ (left.memory.read Cell.stack).toNat)
    (there : image.sites[last]? = some (.compiled callee .ret))
    (leaves : image.Runs last left after) :
    Returned image index pointer count stored before left after := by
  obtain ⟨counter, agree⟩ := leaves.agree (found.performs room bounded operand there)
  have first : (pointer - count).toNat = pointer.toNat - count.toNat := by bv_omega
  have given := Memory.left_leave found.locals found.arguments rfl (by bv_omega) (by bv_omega)
    (by bv_omega)
  have base : ∀ {base offset value : Word} (position : Nat), ¬ Scratch base →
      left.memory.leave.read base = left.memory.read (pointer + 5 - offset) →
      pointer + 5 - offset = pointer + BitVec.ofNat 16 position →
      (before.memory.frameCells (landing image.sites index))[position]? = some value →
      after.memory.read base = value := by
    intro base offset value position clear restored same cell
    rw [agree base clear, restored, same, found.saved position value cell]
  have locals : after.memory.read Cell.locals = before.memory.read Cell.locals :=
    base 1 (by decide) given.locals (by bv_omega) rfl
  have arguments_ : after.memory.read Cell.arguments = before.memory.read Cell.arguments :=
    base 2 (by decide) given.arguments (by bv_omega) rfl
  have this : after.memory.read Cell.this = before.memory.read Cell.this :=
    base 3 (by decide) given.this (by bv_omega) rfl
  have that : after.memory.read Cell.that = before.memory.read Cell.that :=
    base 4 (by decide) given.that (by bv_omega) rfl
  refine ⟨counter, agree.stack.trans given.stack, ?_, locals, arguments_, this, that, ?_⟩
  · exact (agree _ (not_scratch_of_le (by bv_omega))).trans given.result
  · intro cell below other apart
    simp only [List.mem_cons, List.not_mem_nil, or_false, not_or] at other
    have clear : ¬ Scratch cell := fun scratch => scratch.elim other.2.1 other.2.2
    by_cases register : cell ∈ [Cell.locals, Cell.arguments, Cell.this, Cell.that]
    · simp only [List.mem_cons, List.not_mem_nil, or_false] at register
      rcases register with rfl | rfl | rfl | rfl
      · exact locals
      · exact arguments_
      · exact this
      · exact that
    · simp only [List.mem_cons, List.not_mem_nil, or_false, not_or] at register
      have lower : cell ≠ pointer - count := by
        rintro rfl
        exact absurd below (first ▸ Nat.lt_irrefl _)
      rw [agree cell clear, given.others cell (by simp [other.1, register, lower]),
        kept.cells cell (by omega) other.1 clear apart,
        frame.below cell (by simp [other.1, register]) clear (by omega)]

end Image

theorem Keeps.locals {frame : Nat} {frames : List Nat} {stored : List Word} {before after : Memory}
    (kept : Keeps frame stored before after) (high : 256 ≤ frame)
    (guarded : ∀ cell ∈ stored, ¬ Protected frames cell) :
    after.read Cell.locals = before.read Cell.locals :=
  kept.cells _ (Nat.lt_of_lt_of_le (by decide : Cell.locals.toNat < 256) high) (by decide)
    (by decide) fun member => guarded _ member (.inl (by simp))

theorem Image.call_returned {image : Image} {index last : Nat} {generator callee : Generator}
    {name : String} {arguments pointer : Word} {frames : List Nat} {stored : List Word}
    {before entered left after : Machine} (outside : image.Leaves)
    (here : image.sites[index]? = some (.compiled generator (.call name arguments)))
    (enters : image.Runs index before entered)
    (points : before.memory.read Cell.stack = pointer)
    (room : 256 + arguments.toNat ≤ pointer.toNat) (bounded : pointer.toNat ≤ 32767)
    (guarded : ∀ cell ∈ stored, ¬ Protected ((pointer.toNat + 5) :: frames) cell)
    (keeps : (entered.memory.read Cell.locals).toNat = pointer.toNat + 5 →
      (entered.memory.read Cell.stack).toNat = pointer.toNat + 5 →
      Keeps (pointer.toNat + 5) stored entered.memory left.memory)
    (there : image.sites[last]? = some (.compiled callee .ret))
    (leaves : image.Runs last left after)
    (returns : Admits image ((pointer.toNat + 5) :: frames) callee .ret left.memory
      after.memory) :
    Returned image index pointer arguments stored before left after := by
  have frame := enters.entered outside here points (by omega) bounded
  have base : (entered.memory.read Cell.locals).toNat = pointer.toNat + 5 := by
    rw [frame.locals]
    bv_omega
  have stack : (entered.memory.read Cell.stack).toNat = pointer.toNat + 5 := by
    rw [frame.stack]
    bv_omega
  have kept := keeps base stack
  have operand := returns.operands
  rw [kept.locals (by omega) guarded, base] at operand
  exact returned frame kept (framed frame (by omega) bounded kept guarded) room bounded operand
    there leaves

/-- A balanced execution keeps what lies below its frame. -/
theorem Balanced.keeps {image : Image} {frames outer : List Nat} {stored : List Word}
    {before after : Machine} {frame : Nat} (outside : image.Leaves)
    (balanced : Balanced image frames stored before after) (innermost : frames = frame :: outer)
    (high : 256 ≤ frame) (locals : (before.memory.read Cell.locals).toNat = frame)
    (low : frame ≤ (before.memory.read Cell.stack).toNat)
    (bounded : (before.memory.read Cell.stack).toNat ≤ 32767) :
    Keeps frame stored before.memory after.memory := by
  induction balanced generalizing frame outer with
  | done => exact ⟨low, fun _ _ _ _ _ => rfl⟩
  | @command index generator command frames stored before middle after here plain runs admits
      rest ih =>
    have first := Image.runs_plain outside here plain runs admits high locals low bounded
    have same := first.locals high admits.stores
    exact first.trans (ih innermost high (same ▸ locals) first.low admits.bounded)
  | @call index last generator callee name arguments frames inner stored before entered left
      resumed after here enters admits body there leaves returns rest inside ih =>
    have operands := admits.operands
    rw [locals] at operands
    simp only [Command.operands] at operands
    -- the callee's frame starts above everything that the caller has on its stack
    have back := Image.call_returned outside here enters rfl (by omega) bounded
      body.not_protected
      (fun base stack => inside rfl (by omega) base (Nat.le_of_eq stack.symm) admits.bounded)
      there leaves returns
    have around : Keeps frame inner before.memory resumed.memory := by
      refine ⟨?_, fun cell below other clear apart => ?_⟩
      · rw [back.stack]
        bv_omega
      · refine back.below cell (by omega) ?_ apart
        simp only [List.mem_cons, List.not_mem_nil, or_false, not_or]
        exact ⟨other, fun equal => clear (.inl equal), fun equal => clear (.inr equal)⟩
    exact around.trans (ih innermost high (back.locals ▸ locals) around.low returns.bounded)

/-- Calls are transparent to the caller. Where all labels resolve, a call with its arguments on the
stack, a balanced execution that keeps to its frames and the matching return leave the caller its
bases, its result in place of the arguments and everything below them. -/
theorem call_returns_to_caller (image : Image) (resolves : image.Resolves)
    {index last : Nat} {generator callee : Generator} {name : String} {arguments : Word}
    (here : image.sites[index]? = some (.compiled generator (.call name arguments)))
    (there : image.sites[last]? = some (.compiled callee .ret))
    {before entered left after : Machine} {pointer : Word} {stored : List Word}
    (points : before.memory.read Cell.stack = pointer)
    (room : 256 + arguments.toNat ≤ pointer.toNat) (bounded : pointer.toNat ≤ 32767)
    (enters : image.Runs index before entered)
    (limit : (entered.memory.read Cell.stack).toNat ≤ 32767)
    (body : Balanced image [pointer.toNat + 5] stored entered left)
    (leaves : image.Runs last left after)
    (returns : Admits image [pointer.toNat + 5] callee .ret left.memory after.memory) :
    Returned image index pointer arguments stored before left after :=
  Image.call_returned resolves here enters points room bounded body.not_protected
    (fun base stack =>
      body.keeps resolves rfl (by omega) base (Nat.le_of_eq stack.symm) limit)
    there leaves returns

def calledOnce : List Module := [⟨"M", [.call "F" 0, .function "F" 1, .ret]⟩]

/-- The one call returns the local, in place of no arguments. -/
theorem call_returns_to_caller_once :
    ∃ (image : Image) (before left after : Machine),
      image.sites = listing false calledOnce ∧ before.memory.read Cell.stack = 256 ∧
      Returned image 0 256 0 [] before left after := by
  obtain ⟨image, sites⟩ := @exists_image false [("M", "call F 0\nfunction F 1\nreturn")]
    calledOnce (by decide +kernel) (by decide +kernel) (by decide +kernel) (by decide +kernel)
    (by decide +kernel)
  have resolves : image.Resolves := by
    have all : ∀ site ∈ listing false calledOnce, site.target?.all (fun name =>
        name ∈ labels (codeOf (listing false calledOnce))) = true := by decide +kernel
    intro site member name target
    rw [sites] at member ⊢
    simpa [target] using all site member
  obtain ⟨caller, here⟩ : ∃ caller, image.sites[0]? = some (.compiled caller (.call "F" 0)) :=
    ⟨_, by rw [sites]; rfl⟩
  obtain ⟨outer, entry⟩ : ∃ outer, image.sites[1]? = some (.compiled outer (.function "F" 1)) :=
    ⟨_, by rw [sites]; rfl⟩
  obtain ⟨callee, there⟩ : ∃ callee, image.sites[2]? = some (.compiled callee .ret) :=
    ⟨_, by rw [sites]; rfl⟩
  let before : Machine :=
    { memory := Memory.zero.write Cell.stack 256, counter := image.address 0 }
  have points : before.memory.read Cell.stack = 256 := Memory.read_write_self ..
  obtain ⟨entered, enters, place, -⟩ := Image.performs_call here
    (Memory.room_of_fits points (by decide) (by decide))
    (Image.value_function (by rw [sites]; rfl : _ = some 1)) (image.not_inside 0 1) before rfl rfl
  have frame := Image.Runs.entered resolves here enters points (by decide) (by decide)
  have stack : entered.memory.read Cell.stack = 261 := frame.stack
  have locals : entered.memory.read Cell.locals = 261 := frame.locals
  have space : entered.memory.Room 1 := Memory.room_of_fits stack (by decide) (by decide)
  obtain ⟨left, runs, reached, agree⟩ :=
    @Image.performs_step image ⟨1, entered.memory⟩ ⟨2, entered.memory.pushZeros 1⟩ _ entry space
      (by simp only [Reference.step, entry, Option.bind_some]; rfl) entered place rfl
  have top : left.memory.read Cell.stack = 262 := by
    rw [agree.stack, Memory.read_stack_pushZeros space, stack]
    rfl
  have body : Balanced image [261] [] entered left := by
    refine .command entry rfl runs ⟨?_, ?_, fun _ member => absurd member List.not_mem_nil⟩
      (.done _ _)
    · rw [stack, locals]
      decide
    · rw [top]
      decide
  have kept := body.keeps resolves rfl (by decide) (locals ▸ rfl) (stack ▸ Nat.le_refl _)
    (stack ▸ by decide)
  have framed := @Image.framed before.memory entered.memory left.memory 256 0 _ [] _ frame
    (by decide) (by decide) kept fun _ member => absurd member List.not_mem_nil
  obtain ⟨after, leaves, -, same⟩ := framed.performs (by decide) (by decide) (by rw [top]; decide)
    there left reached rfl
  have given := Memory.left_leave framed.locals framed.arguments rfl (by decide) (by decide)
    (by rw [top]; decide)
  refine ⟨image, before, left, after, sites, points, ?_⟩
  exact call_returns_to_caller image resolves here there points (by decide) (by decide) enters
    (by rw [stack]; decide) body leaves
    ⟨by rw [framed.locals, top]; decide, by rw [same.stack, given.stack]; decide,
      fun _ member => absurd member List.not_mem_nil⟩

end HackStack
