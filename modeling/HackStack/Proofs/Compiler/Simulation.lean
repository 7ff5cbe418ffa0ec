import HackStack.Proofs.Compiler.Image
import HackStack.Proofs.Reference.Frames

/-! The code of a place does what the reference machine does there, and so does the code of a whole
run. -/
namespace HackStack
open Assembly Machine Reference

theorem Site.code_of_ok {generator : Generator} {command : Command} {code : List Statement}
    (generated : generator.code command = .ok code) :
    (Site.compiled generator command).code = code := by
  simp only [Site.code, generated]

theorem not_scratch_of_variable {cell : Word} (high : firstVariable ≤ cell.toNat) :
    ¬ Scratch cell := by
  rintro (rfl | rfl)
  · exact absurd high (by decide)
  · exact absurd high (by decide)

theorem Standard.temp {symbols : String → Word} (standard : Standard symbols) {offset : Nat}
    (bound : offset ≤ 7) : symbols ("R" ++ (5 + offset).repr) = BitVec.ofNat 16 (5 + offset) := by
  have members : ∀ offset < 8,
      ("R" ++ (5 + offset).repr, BitVec.ofNat 16 (5 + offset)) ∈ predefined := by decide
  exact standard _ _ (members offset (by omega))

theorem Standard.cell? {symbols : String → Word} (standard : Standard symbols)
    {generator : Generator} {segment : Segment} {index : Word} {place : Code.Place}
    (found : generator.place segment index = .ok place) (memory : Memory) :
    cell? symbols generator memory index segment = some (place.cell symbols memory) := by
  have fixed := standard.fixed
  cases segment with
  | constant => cases found
  | locals | arguments | this | that =>
    obtain ⟨offset, checked, result⟩ := bind_ok found
    obtain ⟨rfl, -⟩ := Generator.checked_ok checked
    cases result
    simp [Reference.cell?, Code.Place.cell, fixed.locals, fixed.arguments, fixed.this, fixed.that]
  | static =>
    cases found
    rfl
  | temp =>
    obtain ⟨offset, checked, result⟩ := bind_ok found
    obtain ⟨rfl, bound⟩ := Generator.checked_ok checked
    cases result
    simp only [Reference.cell?, Code.Place.cell, standard.temp bound, BitVec.ofNat_add,
      BitVec.ofNat_toNat, BitVec.setWidth_eq]
    rfl
  | pointer =>
    obtain ⟨offset, checked, result⟩ := bind_ok found
    obtain ⟨rfl, bound⟩ := Generator.checked_ok checked
    cases result
    by_cases zero : index.toNat = 0
    · have this : index = 0 := BitVec.eq_of_toNat_eq zero
      simp [Reference.cell?, Code.Place.cell, fixed.this, this]
    · have that : index = 1 := BitVec.eq_of_toNat_eq (by simp; omega)
      simp only [Reference.cell?, Code.Place.cell, if_neg zero, fixed.that]
      rw [that]
      rfl

namespace Image

variable {image : Image} {index : Nat}

theorem performs_push {generator : Generator} {segment : Segment} {offset : Word}
    {memory : Memory} {value : Word}
    (here : image.sites[index]? = some (.compiled generator (.push segment offset)))
    (room : memory.Room 1)
    (found : value? image.program.value generator memory segment offset = some value) :
    Performs image.program.code (image.address index) (image.address (index + 1)) memory
      (image.address (index + 1)) (memory.push value) := by
  obtain ⟨code, generated⟩ := image.accepted _ (List.mem_of_getElem? here)
  have held := holds_site here
  rw [address_succ here]
  rw [Site.code_of_ok generated] at held ⊢
  cases segment with
  | constant =>
    obtain ⟨constant, checked, result⟩ := bind_ok generated
    obtain ⟨rfl, -⟩ := Generator.checked_ok checked
    cases result
    cases found
    simpa using (Code.leaves_pushConstant held image.fixed.stack room.free).performs (Agree.refl _)
  | locals | static | arguments | this | that | pointer | temp =>
    obtain ⟨place, placed, result⟩ := bind_ok generated
    cases result
    simp only [value?, image.standard.cell? placed memory, Option.map_some,
      Option.some.injEq] at found
    subst found
    exact (Code.leaves_pushFrom held image.fixed room.free).performs (Agree.refl _)

theorem performs_pop {generator : Generator} {segment : Segment} {offset : Word}
    {memory : Memory} {cell : Word}
    (here : image.sites[index]? = some (.compiled generator (.pop segment offset)))
    (clear : ¬ Scratch memory.topCell)
    (found : cell? image.program.value generator memory offset segment = some cell) :
    Performs image.program.code (image.address index) (image.address (index + 1)) memory
      (image.address (index + 1)) (memory.popInto cell) := by
  obtain ⟨code, generated⟩ := image.accepted _ (List.mem_of_getElem? here)
  have held := holds_site here
  rw [address_succ here]
  rw [Site.code_of_ok generated] at held ⊢
  obtain ⟨place, placed, result⟩ := bind_ok generated
  cases result
  rw [image.standard.cell? placed memory] at found
  cases found
  exact Code.performs_popTo held image.fixed clear

theorem getElem?_of_findIdx? {test : α → Bool} {entries : List α} {index : Nat}
    (found : entries.findIdx? test = some index) :
    ∃ entry, entries[index]? = some entry ∧ test entry = true := by
  obtain ⟨bound, passed, -⟩ := List.findIdx?_eq_some_iff_getElem.mp found
  exact ⟨_, List.getElem?_eq_getElem bound, passed⟩

theorem value_resolve {scope : Scope} {name : String} {target : Nat}
    (found : image.sites.findIdx? (Site.declares scope name) = some target) :
    (image.program.value (scope.resolve name)).toNat = image.address target := by
  obtain ⟨site, here, declares⟩ := getElem?_of_findIdx? found
  obtain ⟨generator, rfl, rfl⟩ := Site.eq_of_declares declares
  exact value_head here rfl

theorem value_function {name : String} {target : Nat}
    (found : image.sites.findIdx? (Site.defines name) = some target) :
    (image.program.value name).toNat = image.address target := by
  obtain ⟨site, here, defines⟩ := getElem?_of_findIdx? found
  obtain ⟨generator, locals, rfl⟩ := Site.eq_of_defines defines
  exact value_head here rfl

/-- The label behind a call has the address of the place behind it. -/
theorem value_returnSymbol {generator : Generator} {name : String} {arguments : Word}
    (here : image.sites[index]? = some (.compiled generator (.call name arguments))) :
    image.program.value generator.returnSymbol = landing image.sites index := by
  obtain ⟨code, generated⟩ := image.accepted _ (List.mem_of_getElem? here)
  obtain ⟨count, -, result⟩ := bind_ok generated
  cases result
  have resolved := resolved_site here
  have next := address_succ here
  rw [Site.code_of_ok generated] at resolved next
  apply BitVec.eq_of_toNat_eq
  rw [landing]
  refine Eq.trans ?_ (image.address_toNat (index + 1)).symm
  rw [next]
  exact resolved (Code.callBody generator.returnSymbol name count ++ [.jump .zero .always]) _ [] rfl

section
variable {generator : Generator} {name : String} {memory : Memory} {next : Nat}

theorem performs_goto (here : image.sites[index]? = some (.compiled generator (.goto name)))
    (target : (image.program.value (generator.scope.resolve name)).toNat = next)
    (outside : ¬ (image.address index < next ∧ next < image.address (index + 1))) :
    Performs image.program.code (image.address index) (image.address (index + 1)) memory next
      memory := by
  rw [address_succ here] at outside ⊢
  exact Code.performs_goto (holds_site here) target outside

theorem performs_ifGoto (here : image.sites[index]? = some (.compiled generator (.ifGoto name)))
    (target : memory.popped ≠ 0 →
      (image.program.value (generator.scope.resolve name)).toNat = next)
    (through : memory.popped = 0 → image.address (index + 1) = next)
    (outside : ¬ (image.address index < next ∧ next < image.address (index + 1))) :
    Performs image.program.code (image.address index) (image.address (index + 1)) memory next
      memory.drop := by
  rw [address_succ here] at through outside ⊢
  exact Code.performs_ifGoto (holds_site here) image.fixed target through outside

theorem performs_call {arguments : Word}
    (here : image.sites[index]? = some (.compiled generator (.call name arguments)))
    (room : memory.Room 5) (target : (image.program.value name).toNat = next)
    (outside : ¬ (image.address index < next ∧ next < image.address (index + 1))) :
    Performs image.program.code (image.address index) (image.address (index + 1)) memory next
      (memory.enter (landing image.sites index) arguments.toNat) := by
  obtain ⟨code, generated⟩ := image.accepted _ (List.mem_of_getElem? here)
  obtain ⟨count, checked, result⟩ := bind_ok generated
  obtain ⟨rfl, -⟩ := Generator.checked_ok checked
  cases result
  have held := holds_site here
  rw [address_succ here] at outside ⊢
  rw [Site.code_of_ok generated] at held outside ⊢
  rw [← value_returnSymbol here]
  exact Code.performs_call held image.fixed room target outside

theorem performs_ret (here : image.sites[index]? = some (.compiled generator .ret))
    (clear : memory.Returns) (target : memory.returnAddress.toNat = next)
    (outside : ¬ (image.address index < next ∧ next < image.address (index + 1))) :
    Performs image.program.code (image.address index) (image.address (index + 1)) memory next
      memory.leave := by
  rw [address_succ here] at outside ⊢
  exact Code.performs_ret (holds_site here) image.fixed clear target outside

end

/-- A return address that is known belongs to the place at which control goes on. -/
theorem landing_address {target : Word} {next : Nat}
    (found : landingIndex? image.sites target = some next) :
    target.toNat = image.address next := by
  obtain ⟨index, passed, rfl⟩ := Option.map_eq_some_iff.mp found
  have test := List.find?_some passed
  simp only [Bool.and_eq_true, decide_eq_true_eq] at test
  rw [← test.2]
  exact image.address_toNat (index + 1)

/-- The code of a place does what the reference machine does there. -/
theorem performs_step {state result : State} {site : Site}
    (here : image.sites[state.next]? = some site) (safe : Safe state.memory site)
    (taken : step image.sites image.program.value state = some result) :
    Performs image.program.code (image.address state.next) (image.address (state.next + 1))
      state.memory (image.address result.next) result.memory := by
  obtain ⟨index, memory⟩ := state
  have held := holds_site here
  have next := address_succ here
  have outside := image.not_inside index
  simp only [Reference.step, here, Option.bind_some] at taken
  cases site with
  | setStack =>
    cases taken
    rw [next]
    exact Code.performs_setStack held image.fixed
  | loop label =>
    cases taken
    rw [next]
    exact Code.performs_loop held (value_head here rfl)
  | compiled generator command =>
    cases command with
    | arithmetic mnemonic =>
      obtain ⟨operation, found, rfl⟩ := Option.map_eq_some_iff.mp taken
      have resolved := resolved_site here
      have made : generator.code (.arithmetic mnemonic) =
          .ok (Code.operation generator.comparisons operation) := by
        simp only [Generator.code, found]
      rw [next]
      rw [Site.code_of_ok made] at held resolved ⊢
      exact (Code.leaves_operation held image.fixed resolved).performs (Agree.refl _)
    | push segment offset =>
      obtain ⟨value, found, rfl⟩ := Option.map_eq_some_iff.mp taken
      exact performs_push here safe found
    | pop segment offset =>
      obtain ⟨cell, found, rfl⟩ := Option.map_eq_some_iff.mp taken
      exact performs_pop here safe found
    | label name =>
      cases taken
      rintro machine start rfl
      refine ⟨machine, ⟨start, .inl ⟨next.symm, rfl⟩⟩, ?_, Agree.refl _⟩
      exact start.trans next.symm
    | goto name =>
      obtain ⟨target, found, rfl⟩ := Option.map_eq_some_iff.mp taken
      exact performs_goto here (value_resolve found) (outside target)
    | ifGoto name =>
      by_cases zero : memory.popped = 0
      · simp only [act, zero, ne_eq, not_true_eq_false, if_false, Option.some.injEq] at taken
        subst taken
        exact performs_ifGoto here (absurd zero) (fun _ => rfl) (outside (index + 1))
      · simp only [act, zero, ne_eq, not_false_eq_true, if_true] at taken
        obtain ⟨target, found, rfl⟩ := Option.map_eq_some_iff.mp taken
        exact performs_ifGoto here (fun _ => value_resolve found)
          (fun equal => absurd equal zero) (outside target)
    | function name locals =>
      cases taken
      rw [next]
      exact (Code.leaves_function held image.fixed.stack safe).performs (Agree.refl _)
    | call name arguments =>
      obtain ⟨target, found, rfl⟩ := Option.map_eq_some_iff.mp taken
      exact performs_call here safe (value_function found) (outside target)
    | ret =>
      obtain ⟨target, found, rfl⟩ := Option.map_eq_some_iff.mp taken
      exact performs_ret here safe (landing_address found) (outside target)

theorem static_not_scratch {generator : Generator} {index : Word}
    (member : Site.compiled generator (.push .static index) ∈ image.sites)
    (undeclared : generator.staticSymbol index ∉ labels (codeOf image.sites)) :
    ¬ Scratch (image.program.value (generator.staticSymbol index)) := by
  have referenced : generator.staticSymbol index ∈ references (codeOf image.sites) := by
    apply List.mem_filterMap.mpr
    refine ⟨.symbol (generator.staticSymbol index), List.mem_flatMap.mpr ⟨_, member, ?_⟩, rfl⟩
    exact List.mem_cons_self
  have unknown : generator.staticSymbol index ∉ predefined.map Prod.fst := by
    intro known
    have dot : '.' ∈ (generator.staticSymbol index).toList := by
      simp [Generator.staticSymbol]
    have plain : ∀ name ∈ predefined.map Prod.fst, '.' ∉ name.toList := by decide
    exact plain _ known dot
  exact not_scratch_of_variable (value_variable image.assembled referenced undeclared unknown)

/-- A push from a segment that does not move reads no scratch cell. -/
theorem still_not_scratch {generator : Generator} {segment : Segment} {index cell : Word}
    {memory : Memory}
    (member : Site.compiled generator (.push segment index) ∈ image.sites)
    (undeclared : ∀ name ∈ statics image.sites, name ∉ labels (codeOf image.sites))
    (still : base? segment = none)
    (found : cell? image.program.value generator memory index segment = some cell) :
    ¬ Scratch cell := by
  obtain ⟨code, generated⟩ := image.accepted _ member
  cases segment with
  | constant => cases found
  | locals | arguments | this | that => cases still
  | static =>
    cases found
    exact static_not_scratch member
      (undeclared _ (List.mem_filterMap.mpr ⟨_, member, rfl⟩))
  | temp =>
    obtain ⟨place, placed, -⟩ := bind_ok generated
    obtain ⟨offset, checked, -⟩ := bind_ok placed
    obtain ⟨rfl, bound⟩ := Generator.checked_ok checked
    cases found
    rintro (frame | landing)
    · simp only [Cell.frame] at frame
      bv_omega
    · simp only [Cell.landing] at landing
      bv_omega
  | pointer =>
    obtain ⟨place, placed, -⟩ := bind_ok generated
    obtain ⟨offset, checked, -⟩ := bind_ok placed
    obtain ⟨rfl, bound⟩ := Generator.checked_ok checked
    cases found
    rintro (frame | landing)
    · simp only [Cell.frame, Cell.this] at frame
      bv_omega
    · simp only [Cell.landing, Cell.this] at landing
      bv_omega

/-- Each execution of the reference machine is one of the machine's, from any state that has the
same memory and stands at the same place. -/
theorem simulates (undeclared : ∀ name ∈ statics image.sites, name ∉ labels (codeOf image.sites))
    {start finish : State} (run : Run image.sites image.program.value start finish)
    {machine : Machine} (there : machine.counter = image.address start.next)
    (agree : Agree machine.memory start.memory) :
    ∃ count result, steps image.program.code count machine = .ok result ∧
      result.counter = image.address finish.next ∧ Agree result.memory finish.memory := by
  induction run generalizing machine with
  | refl state => exact ⟨0, machine, rfl, there, agree⟩
  | @next state middle final site here safe clear taken _ ih =>
    obtain ⟨memory, actual, close⟩ := step_agree agree here safe clear
      (by
        rintro generator segment index rfl still cell found
        exact still_not_scratch (List.mem_of_getElem? here) undeclared still found)
      taken
    obtain ⟨reached, executed, counter, near⟩ :=
      @performs_step image ⟨state.next, machine.memory⟩ _ _ here (safe.agree agree) actual machine
        there rfl
    obtain ⟨first, head⟩ := executed.steps
    obtain ⟨second, result, tail, place, equal⟩ := ih counter (near.trans close)
    exact ⟨first + second, result, steps_append head tail, place, equal⟩

end Image

/-- Whole-program simulation. The output of a run loads if it fits. If its labels resolve uniquely,
are no static symbols and every target is there, then the reference machine is stuck inside the
listing only at a return to an unknown address, and the machine follows each of its executions, from
any place and with any memory, up to the scratch cells. -/
theorem output_simulates_reference {bootstrap : Bool} {modules : List Module} {text : String}
    (produced : Produces bootstrap modules text)
    (fits : size (Statement.ofSource text) ≤ maxConstant) (unambiguous : Unambiguous text)
    (undeclared : ∀ name ∈ statics (listing bootstrap modules),
      name ∉ labels (Statement.ofSource text))
    (targets : ∀ site ∈ listing bootstrap modules,
      site.reaches (listing bootstrap modules) = true) :
    ∃ program, Program.load text = .ok program ∧
      (∀ state : State, state.next < (listing bootstrap modules).length →
        (Reference.step (listing bootstrap modules) program.value state = none ↔
          ∃ generator, (listing bootstrap modules)[state.next]? = some (.compiled generator .ret) ∧
            landingIndex? (listing bootstrap modules) state.memory.returnAddress = none)) ∧
      ∀ start finish : State, Run (listing bootstrap modules) program.value start finish →
        ∀ machine : Machine, machine.counter = address (listing bootstrap modules) start.next →
          Agree machine.memory start.memory →
          ∃ count result, Machine.steps program.code count machine = .ok result ∧
            result.counter = address (listing bootstrap modules) finish.next ∧
            Agree result.memory finish.memory := by
  obtain ⟨program, loaded⟩ := produced.listed.loads fits
  let image : Image := ⟨bootstrap, modules, text, program, produced, loaded, unambiguous⟩
  refine ⟨program, loaded, fun state inside => ?_, fun start finish run machine there agree => ?_⟩
  · exact step_eq_none_iff produced.listed.accepted targets inside
  · refine @Image.simulates image ?_ start finish run machine there agree
    rw [← image.statements]
    exact undeclared

def callerAndCallee : List Module :=
  [⟨"Sys", [.function "Sys.init" 0, .push .constant 7, .call "Main.f" 1, .pop .static 3,
    .label "L", .goto "L"]⟩,
   ⟨"Main", [.function "Main.f" 1, .push .arguments 0, .ret]⟩]

theorem exists_run_callee {symbols : String → Word} {memory : Memory}
    (stack : memory.read Cell.stack = 267) (locals : memory.read Cell.locals = 267)
    (arguments : memory.read Cell.arguments = 261) (argument : memory.read 261 = 7)
    (back : memory.read 262 = landing (listing true callerAndCallee) 5) :
    ∃ after, Run (listing true callerAndCallee) symbols ⟨9, memory⟩ ⟨6, after⟩ ∧
      after.read Cell.stack = 262 ∧ after.read 261 = 7 ∧
      after.read Cell.locals = memory.read 263 := by
  let cleared := memory.push 0
  let ready := cleared.push 7
  have zero : ∀ cell, cleared.read cell = _ := Memory.read_push stack (by decide) 0
  have pointer : cleared.read Cell.stack = 268 := zero _
  have base : cleared.read Cell.arguments = 261 := (zero _).trans arguments
  have value : cleared.read (cleared.read Cell.arguments + 0) = 7 := by
    rw [base]
    exact (zero _).trans argument
  have seven : ∀ cell, ready.read cell = _ := Memory.read_push pointer (by decide) 7
  have top : ready.read Cell.stack = 269 := seven _
  have given : ready.read Cell.arguments = 261 := (seven _).trans base
  have frame : ready.read Cell.locals = 267 := (seven _).trans ((zero _).trans locals)
  have address : ready.returnAddress = landing (listing true callerAndCallee) 5 := by
    rw [Memory.returnAddress, frame, ← back]
    exact (seven _).trans (zero _)
  have returns : Reference.step (listing true callerAndCallee) symbols ⟨11, ready⟩ =
      some ⟨6, ready.leave⟩ := by
    have found : landingIndex? (listing true callerAndCallee)
        (landing (listing true callerAndCallee) 5) = some 6 := by decide +kernel
    have here : (listing true callerAndCallee)[11]? = some (.compiled _ .ret) := rfl
    simp only [Reference.step, here, Option.bind_some, act, address, found, Option.map_some]
  have left := Memory.left_leave frame given top (by decide) (by decide) (by decide)
  refine ⟨ready.leave, ?_, left.stack, left.result.trans (seven _),
    left.locals.trans ((seven _).trans (zero _))⟩
  refine .next rfl (Memory.room_of_fits stack (by decide) (by decide)) trivial rfl ?_
  refine .next rfl (Memory.room_of_fits pointer (by decide) (by decide)) ?_
    (congrArg (fun value => some (State.mk 11 (cleared.push value))) value) ?_
  · rintro _ ⟨⟩
    exact not_scratch_of_le (base ▸ by decide)
  · refine .next rfl ⟨?_, ?_, ?_⟩ trivial returns (.refl _)
    · exact not_scratch_of_le (by rw [Memory.topCell, top]; decide)
    · exact not_scratch_of_le (by rw [given]; decide)
    · rw [frame]
      simp [Scratch, Cell.frame, Cell.landing]

/-- The reference machine enters the caller, calls the callee with an argument, and pops the result
into the static cell. The caller has its frame again. -/
theorem exists_run_callerAndCallee {symbols : String → Word}
    (high : firstVariable ≤ (symbols "Sys.3").toNat) :
    ∃ memory, Run (listing true callerAndCallee) symbols ⟨0, .zero⟩ ⟨7, memory⟩ ∧
      memory.read (symbols "Sys.3") = 7 ∧ memory.read Cell.stack = 261 ∧
      memory.read Cell.locals = 261 := by
  let started := Memory.zero.write Cell.stack 256
  let entered := started.enter (landing (listing true callerAndCallee) 1) 0
  let passed := entered.push 7
  let called := passed.enter (landing (listing true callerAndCallee) 5) 1
  have bottom : started.read Cell.stack = 256 := Memory.read_write_self ..
  have outer : Memory.Entered started entered 256 _ 0 :=
    Memory.entered_enter bottom (by decide) (by decide) _ 0
  have seven : ∀ cell, passed.read cell = _ := Memory.read_push outer.stack (by decide) 7
  have pointer : passed.read Cell.stack = 262 := seven _
  have inner : Memory.Entered passed called 262 _ 1 :=
    Memory.entered_enter pointer (by decide) (by decide) _ 1
  obtain ⟨after, body, stack, result, locals⟩ := exists_run_callee inner.stack inner.locals
    inner.arguments ((inner.below _ (by decide) (by decide) (by decide)).trans (seven _))
    (inner.saved 0 _ rfl)
  have top : after.topCell = 261 := by
    rw [Memory.topCell, stack]
    rfl
  have apart : ∀ cell : Word, cell.toNat < firstVariable → cell ≠ symbols "Sys.3" := by
    rintro cell low rfl
    omega
  refine ⟨after.popInto (symbols "Sys.3"), ?_, ?_, ?_, ?_⟩
  · refine .next rfl trivial trivial rfl ?_
    refine .next rfl (Memory.room_of_fits bottom (by decide) (by decide)) trivial rfl ?_
    refine .next rfl (Memory.room_of_fits outer.stack (by decide) (by decide)) trivial rfl ?_
    refine .next rfl (Memory.room_of_fits outer.stack (by decide) (by decide)) (by rintro _ ⟨⟩) rfl
      ?_
    refine .next rfl (Memory.room_of_fits pointer (by decide) (by decide)) trivial rfl ?_
    refine body.trans (.next rfl ?_ trivial rfl (.refl _))
    exact not_scratch_of_le (top ▸ by decide)
  · rw [Memory.popInto, Memory.read_write_self, Memory.popped_eq (by rw [top]; decide), top, result]
  · rw [Memory.popInto, Memory.read_write_of_ne _ _ (apart _ (by decide)),
      Memory.read_stack_drop, stack]
    rfl
  · rw [Memory.popInto, Memory.read_write_of_ne _ _ (apart _ (by decide)), Memory.drop,
      Memory.read_write_of_ne _ _ (by decide), locals]
    exact (inner.saved 1 _ rfl).trans ((seven _).trans outer.locals)

/-- The machine follows the two modules through the call, the return and the pop. -/
theorem output_simulates_reference_entry :
    ∃ text program, Produces true callerAndCallee text ∧ Program.load text = .ok program ∧
      ∃ count result, Machine.steps program.code count {} = .ok result ∧ result.counter = 101 ∧
        result.memory.read (program.value "Sys.3") = 7 ∧ result.memory.read Cell.stack = 261 ∧
        result.memory.read Cell.locals = 261 := by
  obtain ⟨text, produced⟩ := @exists_produces true
    [("Sys", "function Sys.init 0\npush constant 7\ncall Main.f 1\npop static 3\nlabel L\ngoto L"),
     ("Main", "function Main.f 1\npush argument 0\nreturn")]
    callerAndCallee (by decide +kernel) (by decide +kernel)
  have statements := produced.listed.ofSource
  obtain ⟨program, loaded, -, simulates⟩ := output_simulates_reference produced
    (by rw [statements]; decide +kernel)
    ⟨by rw [statements]; decide +kernel, by rw [statements]; decide +kernel⟩
    (by rw [statements]; decide +kernel) (by decide +kernel)
  refine ⟨text, program, produced, loaded, ?_⟩
  have high : firstVariable ≤ (program.value "Sys.3").toNat :=
    value_variable loaded (by rw [statements]; decide +kernel) (by rw [statements]; decide +kernel)
      (by decide)
  obtain ⟨memory, run, static, stack, locals⟩ := exists_run_callerAndCallee high
  obtain ⟨count, result, executed, place, agree⟩ := simulates _ _ run {} rfl (Agree.refl _)
  have behind : address (listing true callerAndCallee) 7 = 101 := by decide +kernel
  refine ⟨count, result, executed, place.trans behind, ?_, ?_, ?_⟩
  · rw [agree _ (not_scratch_of_variable high), static]
  · rw [agree.stack, stack]
  · rw [agree _ (by decide), locals]

end HackStack
