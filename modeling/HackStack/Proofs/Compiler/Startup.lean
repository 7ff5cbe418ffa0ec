import HackStack.Proofs.Compiler.Calls
import HackStack.Proofs.Compiler.Resolution
import HackStack.Proofs.Machine.Halting

/-! Programs that start by themselves. Their first code sets up the stack and calls the entry
function, and a loop stands behind the call. When the entry function returns, the machine is in that
loop, with the result as the only value on the stack, and stays there. -/
namespace HackStack
open Assembly Machine Reference

namespace Image

structure Starts (image : Image) : Prop where
  bootstrap : image.bootstrap = true
  defined : image.sites.any (Site.defines Code.entryFunction) = true

namespace Starts

variable {image : Image} {index : Nat}

theorem sites_eq (starts : image.Starts) : ∃ rest, image.sites = startSites ++ rest := by
  refine ⟨(startState true).moduleSites image.modules ++ [.loop Code.endLabel], ?_⟩
  rw [sites, starts.bootstrap, listing, if_pos rfl, List.append_assoc]

theorem entry_declared (starts : image.Starts) :
    Code.entryFunction ∈ labels (codeOf image.sites) := by
  obtain ⟨site, member, defines⟩ := List.any_eq_true.mp starts.defined
  obtain ⟨generator, locals, rfl⟩ := Site.eq_of_defines defines
  exact mem_labels.mpr (List.mem_flatMap.mpr ⟨_, member, List.mem_cons_self⟩)

theorem variablesIn_startSites (starts : image.Starts) :
    variablesIn (codeOf image.sites) (codeOf startSites) = [] := by
  have kinds : ∀ name ∈ references (codeOf startSites), name = Code.entryFunction ∨
      name ∈ labels (codeOf startSites) ∨ name ∈ predefined.map Prod.fst := by decide
  refine List.filter_eq_nil_iff.mpr fun name member => ?_
  rw [decide_eq_true_iff, not_not]
  rcases kinds name member with rfl | own | known
  · exact List.mem_append_left _ starts.entry_declared
  · obtain ⟨rest, sites⟩ := starts.sites_eq
    rw [sites, codeOf_append, labels_append]
    exact List.mem_append_left _ (List.mem_append_left _ own)
  · exact List.mem_append_right _ known

theorem length_variablesIn_take (starts : image.Starts) (behind : 3 ≤ index) :
    (variablesIn (codeOf image.sites) (codeOf (image.sites.take index))).length + 48 ≤
      image.address index := by
  obtain ⟨rest, sites⟩ := starts.sites_eq
  have front : image.sites.take index = startSites ++ rest.take (index - 3) := by
    rw [sites, List.take_append, List.take_of_length_le behind]
    rfl
  have start : size (codeOf startSites) = 48 := rfl
  have count := length_variablesIn_le (codeOf image.sites) (codeOf (rest.take (index - 3)))
  rw [address, HackStack.address, front, codeOf_append, variablesIn_append,
    starts.variablesIn_startSites, List.nil_append, size_append, start]
  omega

/-- A label that is declared nowhere is the first variable of the code that jumps to it. -/
theorem head_variablesIn_ifGoto {whole rest : List Statement} {generator : Generator}
    {name : String} (undeclared : generator.scope.resolve name ∉ labels whole) :
    (variablesIn whole ((Site.compiled generator (.ifGoto name)).code ++ rest)).head? =
      some (generator.scope.resolve name) := by
  have unknown : generator.scope.resolve name ∉ predefined.map Prod.fst := fun known =>
    not_marked_predefined known ((marked_resolve generator.scope name).mono (by simp))
  have stack : "SP" ∈ predefined.map Prod.fst := by decide
  have refers : references (Site.compiled generator (.ifGoto name)).code =
      ["SP", generator.scope.resolve name] := rfl
  rw [variablesIn, references_append, refers, List.cons_append, List.cons_append,
    List.filter_cons_of_neg (by simp [stack]), List.filter_cons_of_pos]
  · rfl
  · simpa using And.intro undeclared (by simpa using unknown)

/-- A label that is declared nowhere has a cell before the code that jumps to it. -/
theorem undeclared_below (starts : image.Starts) {generator : Generator} {name : String}
    (here : image.sites[index]? = some (.compiled generator (.ifGoto name)))
    (undeclared : generator.scope.resolve name ∉ labels (codeOf image.sites)) :
    (image.program.value (generator.scope.resolve name)).toNat < image.address index := by
  have behind : 3 ≤ index := by
    obtain ⟨rest, sites⟩ := starts.sites_eq
    by_contra early
    rw [sites] at here
    have front : index = 0 ∨ index = 1 ∨ index = 2 := by omega
    rcases front with rfl | rfl | rfl <;> cases here
  have split := codeOf_split here
  have room := starts.length_variablesIn_take behind
  have assembled := image.assembled
  have next := @head_variablesIn_ifGoto _ (codeOf (image.sites.drop (index + 1))) _ _ undeclared
  rw [split] at assembled next room
  have bound := value_le_of_head assembled next
  simp only [firstVariable] at bound
  omega

/-- In a program that starts by itself no jump or call that ends goes into its own code, whether or
not its target is declared. -/
theorem leaves (starts : image.Starts) : image.Leaves := by
  intro index site name before after here target runs
  have next := address_succ here
  have held := holds_site here
  unfold Site.target? at target
  split at target
  · cases target
    exact @Executes.not_into_itself _ _ _ _ [] [] _ _ _ runs held rfl next
  · rename_i generator label
    cases target
    by_cases declared : generator.scope.resolve label ∈ labels (codeOf image.sites)
    · refine declared_outside here declared ?_
      simp [Site.code, Generator.code, Code.ifGoto, Code.popData, Statement.symbol,
        Statement.store, Statement.jump]
    · have below := starts.undeclared_below here declared
      omega
  · rename_i generator callee arguments
    cases target
    obtain ⟨code, generated⟩ := image.accepted _ (List.mem_of_getElem? here)
    obtain ⟨count, -, result⟩ := bind_ok generated
    cases result
    rw [Site.code_of_ok generated] at held next
    exact @Executes.not_into_itself _ _ _ _
      (Code.saveCaller generator.returnSymbol ++ Code.setBases count) _ _ _ _ runs held rfl next
  · cases target

end Starts
end Image

/-- A balanced execution is a number of steps. -/
theorem Balanced.steps {image : Image} {frames : List Nat} {stored : List Word}
    {before after : Machine} (balanced : Balanced image frames stored before after) :
    ∃ count, Machine.steps image.program.code count before = .ok after := by
  induction balanced with
  | done => exact ⟨0, rfl⟩
  | command _ _ runs _ _ ih =>
    obtain ⟨first, head⟩ := Executes.steps runs
    obtain ⟨second, tail⟩ := ih
    exact ⟨_, steps_append head tail⟩
  | call _ enters _ _ _ leaves _ _ inside ih =>
    obtain ⟨first, head⟩ := Executes.steps enters
    obtain ⟨second, body⟩ := inside
    obtain ⟨third, back⟩ := Executes.steps leaves
    obtain ⟨fourth, tail⟩ := ih
    exact ⟨_, steps_append head (steps_append body (steps_append back tail))⟩

namespace Machine

section
variable {code : Array Instruction} {symbols : String → Word} {first : Nat} {label : String}
  {machine : Machine}

theorem loopAt_of_holds (held : Holds code symbols first (Code.loop label))
    (target : (symbols label).toNat = first) : LoopAt code first .none := by
  obtain ⟨-, load, jump, -⟩ := held
  have address : symbols label = BitVec.ofNat 16 first := by
    rw [← target, BitVec.ofNat_toNat, BitVec.setWidth_eq]
  refine ⟨target ▸ (symbols label).isLt, ?_, jump _ rfl⟩
  rw [← address]
  exact load _ rfl

theorem halted_loop (held : Holds code symbols first (Code.loop label))
    (target : (symbols label).toNat = first) (start : machine.counter = first)
    (bound : first ≤ maxConstant) : checkHalted code machine = .ok true := by
  subst start
  exact (loopAt_of_holds held target).halted bound

end
end Machine

/-- The machine rests with a result: it has halted in the loop behind the call of the entry
function, the result is the only value on the stack, all bases are zero, and however long it goes
on, its memory stays as it is and its counter on the two instructions of the loop. -/
structure Rests (program : Program) (result : Word) (machine : Machine) : Prop where
  counter : ∃ halt, program.symbol Code.haltLabel = .ok halt ∧ machine.counter = halt.toNat
  halted : checkHalted program.code machine = .ok true
  stack : machine.memory.read Cell.stack = 257
  result : machine.memory.read 256 = result
  bases : ∀ base ∈ [Cell.locals, Cell.arguments, Cell.this, Cell.that],
    machine.memory.read base = 0
  stays : ∀ count, ∃ later, Machine.steps program.code count machine = .ok later ∧
    later.memory = machine.memory ∧
    (later.counter = machine.counter ∨ later.counter = machine.counter + 1)

namespace Image.Starts

variable {image : Image}

theorem sites_front (starts : image.Starts) :
    image.sites[0]? = some .setStack ∧
      image.sites[1]? = some (.compiled { started := true } (.call Code.entryFunction 0)) ∧
      image.sites[2]? = some (.loop Code.haltLabel) := by
  obtain ⟨rest, sites⟩ := starts.sites_eq
  rw [sites]
  exact ⟨rfl, rfl, rfl⟩

/-- The caller of the entry function has an empty stack and no bases. -/
structure Ready (machine : Machine) : Prop where
  stack : machine.memory.read Cell.stack = 256
  bases : ∀ base ∈ [Cell.locals, Cell.arguments, Cell.this, Cell.that],
    machine.memory.read base = 0

/-- From a memory of zeros, the first two places lead to the entry function. -/
theorem exists_entered (starts : image.Starts) :
    ∃ ready entered : Machine, image.Runs 0 {} ready ∧ image.Runs 1 ready entered ∧
      Ready ready ∧ entered.counter = (image.program.value Code.entryFunction).toNat := by
  obtain ⟨first, second, -⟩ := starts.sites_front
  obtain ⟨ready, sets, next, agree⟩ :=
    @performs_step image ⟨0, .zero⟩ ⟨1, Memory.zero.write Cell.stack 256⟩ _ first trivial
      (by simp only [Reference.step, first, Option.bind_some]; rfl) {} rfl rfl
  have stack : ready.memory.read Cell.stack = 256 := by
    rw [agree.stack, Memory.read_write_self]
  have bases : ∀ base ∈ [Cell.locals, Cell.arguments, Cell.this, Cell.that],
      ready.memory.read base = 0 := by
    intro base member
    have clear : ¬ Scratch base ∧ base ≠ Cell.stack := by
      simp only [List.mem_cons, List.not_mem_nil, or_false] at member
      rcases member with rfl | rfl | rfl | rfl <;> decide
    rw [agree base clear.1, Memory.read_write_of_ne _ _ clear.2, Memory.read_zero]
  obtain ⟨target, found⟩ := Option.isSome_iff_exists.mp
    (List.findIdx?_isSome.trans starts.defined)
  obtain ⟨entered, enters, place, -⟩ := performs_call second
    (Memory.room_of_fits stack (by decide) (by decide)) (value_function found)
    (image.not_inside 1 target) ready next rfl
  exact ⟨ready, entered, sets, enters, ⟨stack, bases⟩, place.trans (value_function found).symm⟩

/-- When the entry function returns, the machine rests. -/
theorem rests (starts : image.Starts) {ready entered left : Machine} {stored : List Word}
    {last : Nat} {callee : Generator} (set : Ready ready) (enters : image.Runs 1 ready entered)
    (balanced : Balanced image [261] stored entered left)
    (there : image.sites[last]? = some (.compiled callee .ret))
    (place : left.counter = image.address last)
    (operand : (left.memory.read Cell.locals).toNat + 1 ≤ (left.memory.read Cell.stack).toNat) :
    ∃ final, image.Runs last left final ∧
      Rests image.program (left.memory.read (left.memory.read Cell.stack - 1)) final := by
  obtain ⟨-, second, third⟩ := starts.sites_front
  have frame := Runs.entered starts.leaves second enters set.stack (by decide) (by decide)
  have locals : entered.memory.read Cell.locals = 261 := frame.locals
  have stack : entered.memory.read Cell.stack = 261 := frame.stack
  have kept := balanced.keeps starts.leaves rfl (by decide) (locals ▸ rfl)
    (stack ▸ Nat.le_refl _) (stack ▸ by decide)
  have found := @framed ready.memory entered.memory left.memory 256 0 _ [] stored frame
    (by decide) (by decide) kept balanced.not_protected
  rw [found.locals] at operand
  obtain ⟨final, leaves, -, -⟩ :=
    found.performs (by decide) (by decide) operand there left place rfl
  have back := returned frame kept found (by decide) (by decide) operand there leaves
  have held := holds_site third
  have target := value_head third rfl
  have refers : Code.haltLabel ∈ references (codeOf image.sites) :=
    mem_references_codeOf.mpr ⟨_, List.mem_of_getElem? third, List.mem_singleton_self _⟩
  refine ⟨final, leaves, ?_, ?_, back.stack, back.result, ?_, fun count => ?_⟩
  · refine ⟨_, symbol_of_mem_references image.assembled refers, ?_⟩
    rw [target]
    exact back.counter
  · exact halted_loop held target back.counter (image.address_le 2)
  · intro base member
    have zero := set.bases base member
    simp only [List.mem_cons, List.not_mem_nil, or_false] at member
    rcases member with rfl | rfl | rfl | rfl
    · exact back.locals.trans zero
    · exact back.arguments.trans zero
    · exact back.this.trans zero
    · exact back.that.trans zero
  · obtain ⟨later, taken, same, inside⟩ :=
      (loopAt_of_holds held target).steps rfl (.inl back.counter) count
    rw [back.counter]
    exact ⟨later, taken, same, inside.imp_right And.left⟩

end Image.Starts

/-- A program that starts by itself halts safely when its entry function returns. Where the labels
of the output resolve uniquely and it fits, it loads, and from a memory of zeros its first two
places lead to the entry function. If a balanced execution from there, which keeps to its frames,
reaches its own return with a value on top, then the machine comes to rest with that value. -/
theorem entry_return_halts {modules : List Module} {text : String}
    (produced : Produces true modules text)
    (fits : size (Statement.ofSource text) ≤ maxConstant) (unambiguous : Unambiguous text)
    (defined : (listing true modules).any (Site.defines Code.entryFunction) = true) :
    ∃ (program : Program) (loaded : Program.load text = .ok program) (ready entered : Machine),
      let image : Image := ⟨true, modules, text, program, produced, loaded, unambiguous⟩
      image.Runs 0 {} ready ∧ image.Runs 1 ready entered ∧
      (∃ entry, program.symbol Code.entryFunction = .ok entry ∧
        entered.counter = entry.toNat) ∧
      ∀ (stored : List Word) (left : Machine) (last : Nat) (callee : Generator),
        Balanced image [261] stored entered left →
        image.sites[last]? = some (.compiled callee .ret) →
        left.counter = image.address last →
        (left.memory.read Cell.locals).toNat + 1 ≤ (left.memory.read Cell.stack).toNat →
        ∃ count final, Machine.steps program.code count {} = .ok final ∧
          Rests program (left.memory.read (left.memory.read Cell.stack - 1)) final := by
  obtain ⟨program, loaded⟩ := produced.listed.loads fits
  let image : Image := ⟨true, modules, text, program, produced, loaded, unambiguous⟩
  have starts : image.Starts := ⟨rfl, defined⟩
  obtain ⟨ready, entered, sets, enters, set, place⟩ := starts.exists_entered
  have refers : Code.entryFunction ∈ references (codeOf image.sites) :=
    mem_references_codeOf.mpr
      ⟨_, List.mem_of_getElem? starts.sites_front.2.1, List.mem_of_getLast? rfl⟩
  refine ⟨program, loaded, ready, entered, sets, enters, ?_, ?_⟩
  · exact ⟨_, symbol_of_mem_references image.assembled refers, place⟩
  · intro stored left last callee balanced there place operand
    obtain ⟨final, leaves, rests⟩ := starts.rests set enters balanced there place operand
    obtain ⟨first, start⟩ := Executes.steps sets
    obtain ⟨second, call⟩ := Executes.steps enters
    obtain ⟨third, body⟩ := balanced.steps
    obtain ⟨fourth, back⟩ := Executes.steps leaves
    exact ⟨_, final, steps_append start (steps_append call (steps_append body back)), rests⟩

def returnsSeven : List Module := [⟨"Sys", [.function "Sys.init" 0, .push .constant 7, .ret]⟩]

theorem entry_return_halts_seven :
    ∃ text program count final, Produces true returnsSeven text ∧
      Program.load text = .ok program ∧ Machine.steps program.code count {} = .ok final ∧
      Rests program 7 final := by
  obtain ⟨text, produced⟩ := @exists_produces true
    [("Sys", "function Sys.init 0\npush constant 7\nreturn")] returnsSeven
    (by decide +kernel) (by decide +kernel)
  have statements := produced.listed.ofSource
  have fits : size (Statement.ofSource text) ≤ maxConstant := by
    rw [statements]
    decide +kernel
  have unambiguous : Unambiguous text := by
    constructor
    · rw [statements]
      decide +kernel
    · rw [statements]
      decide +kernel
  have defined : (listing true returnsSeven).any (Site.defines Code.entryFunction) = true := by
    decide +kernel
  obtain ⟨program, loaded, ready, entered, sets, enters, -, halts⟩ :=
    entry_return_halts produced fits unambiguous defined
  let image : Image := ⟨true, returnsSeven, text, program, produced, loaded, unambiguous⟩
  have starts : image.Starts := ⟨rfl, defined⟩
  obtain ⟨_, _, first, second, set, place⟩ := starts.exists_entered
  obtain rfl := sets.unique first
  obtain rfl := enters.unique second
  have frame := Image.Runs.entered starts.leaves starts.sites_front.2.1 enters set.stack
    (by decide) (by decide)
  have stack : entered.memory.read Cell.stack = 261 := frame.stack
  have locals : entered.memory.read Cell.locals = 261 := frame.locals
  have here : image.sites[3]? = some (.compiled _ (.function "Sys.init" 0)) := rfl
  have next : image.sites[4]? = some (.compiled _ (.push .constant 7)) := rfl
  have entry : entered.counter = image.address 3 := place.trans (Image.value_head here rfl)
  obtain ⟨middle, declares, reached, same⟩ :=
    @Image.performs_step image ⟨3, entered.memory⟩ ⟨4, entered.memory⟩ _ here
      (Memory.room_of_fits stack (by decide) (by decide)) rfl entered entry rfl
  have pointer : middle.memory.read Cell.stack = 261 := same.stack.trans stack
  obtain ⟨left, pushes, there, agree⟩ :=
    @Image.performs_step image ⟨4, middle.memory⟩ ⟨5, middle.memory.push 7⟩ _ next
      (Memory.room_of_fits pointer (by decide) (by decide)) rfl middle reached rfl
  have push := fun cell => @Memory.read_push middle.memory 261 pointer (by decide) 7 cell
  have top : left.memory.read Cell.stack = 262 := by
    rw [agree.stack, push, if_pos rfl]
    rfl
  have bases : left.memory.read Cell.locals = 261 := by
    rw [agree _ (by decide), push, if_neg (by decide), if_neg (by decide), same _ (by decide),
      locals]
  have value : left.memory.read (left.memory.read Cell.stack - 1) = 7 := by
    rw [top, agree _ (by decide), push, if_neg (by decide), if_pos (by decide)]
  have body : Balanced image [261] [] entered left := by
    refine .command here rfl declares ⟨?_, ?_, fun _ member => absurd member List.not_mem_nil⟩
      (.command next rfl pushes ⟨?_, ?_, fun _ member => absurd member List.not_mem_nil⟩
        (.done _ _))
    · rw [stack, locals]
      decide
    · rw [pointer]
      decide
    · rw [pointer, same _ (by decide), locals]
      decide
    · rw [top]
      decide
  obtain ⟨count, final, steps, rests⟩ := halts [] left 5 _ body rfl there
    (by rw [bases, top]; decide)
  rw [value] at rests
  exact ⟨text, program, count, final, produced, loaded, steps, rests⟩

end HackStack
