import HackStack.Proofs.Compiler.FirstOutput
import HackStack.Proofs.Compiler.Resolution

/-! The symbols of statics. A session is in the module that it has begun last, whatever it does in
between and whatever its sink does. There a static has one symbol, made of the module and the index;
and since an index has no dot, different statics have different symbols, also if the modules' names
have dots and digits in them. -/
namespace HackStack
open Assembly

/-- The module that an action begins. One with a name that is refused does not begin. -/
def Action.module? : Action → Option String
  | .enterModule name | .compileModule name _ => if isSymbol name then some name else none
  | .bootstrap | .compile _ | .compileAll _ => none

def lastModule? (actions : List Action) : Option String :=
  (actions.filterMap Action.module?).getLast?

theorem lastModule?_cons (action : Action) (rest : List Action) :
    lastModule? (action :: rest) = (lastModule? rest).or action.module? := by
  unfold lastModule?
  cases begun : action.module? with
  | none => rw [List.filterMap_cons_none begun, Option.or_none]
  | some name =>
    rw [List.filterMap_cons_some begun, List.getLast?_cons]
    cases (rest.filterMap Action.module?).getLast? <;> rfl

namespace Compilation

variable {σ : Type}

theorem Steady.eq_of_mem_tried {part : Generator → γ} {command? : α → Option Command}
    {action : α → CompileM σ ε Unit} (each : ∀ entry, Steady part (action entry))
    {entries : List α} {before : Compilation σ} {state : Generator} {command : Command}
    (member : .compiled state command ∈ tried command? action entries before) :
    part state = part before.generator := by
  induction entries generalizing before with
  | nil => cases member
  | cons entry rest ih =>
    rcases List.mem_append.mp member with here | later
    · obtain ⟨_, -, same⟩ := List.mem_map.mp here
      cases same
      rfl
    · have kept := each entry before
      split at later
      · rename_i ended
        rw [ended] at kept
        exact (ih later).trans kept
      · cases later

theorem module_enterModule (name : String) (before : Compilation σ) :
    (stateOf (enterModule name before)).generator.module =
      (Action.enterModule name).module?.getD before.generator.module := by
  rw [enterModule_eq, Generator.enterModule, Action.module?]
  split_ifs <;> rfl

variable [Sink σ]

theorem steady_module_compile (command : Command) :
    Steady Generator.module (compile command : CompileM σ Error Unit) :=
  steady_compile fun generator => generator.advance_module command

theorem steady_module_compileItem (name : String) (item : Source.Item) :
    Steady Generator.module (compileItem name item : CompileM σ Failure Unit) := by
  refine Steady.within ?_ _
  cases item.outcome with
  | ok command => exact steady_module_compile command
  | error error => exact fun _ => rfl

/-- After an action the current module is the one that it has begun, if any, and whether or not the
sink has failed. -/
theorem module_action (action : Action) (before : Compilation σ) :
    (stateOf (action.run before)).generator.module =
      action.module?.getD before.generator.module := by
  cases action with
  | enterModule name =>
    rw [Action.run, stateOf_within]
    exact module_enterModule name before
  | bootstrap => exact (steady_bootstrap (fun _ => rfl) fun _ => rfl).within [] before
  | compile command => exact (steady_module_compile command).within [] before
  | compileAll commands =>
    exact (Steady.forM fun command _ => steady_module_compile command).within [] before
  | compileModule name source =>
    have moved := module_enterModule name before
    rw [← stateOf_within [.usingModule name]] at moved
    rw [Action.run, compileModule, run_bind]
    cases entered : within [.usingModule name] (enterModule name) before with
    | ok _ after =>
      rw [entered] at moved
      have kept : Steady Generator.module
          ((Source.items source).forM (compileItem name) : CompileM σ Failure Unit) :=
        Steady.forM fun item _ => steady_module_compileItem name item
      exact (kept after).trans moved
    | error failure after =>
      rw [entered] at moved
      exact moved

/-- A session is in the module that it has begun last. -/
theorem module_session (actions : List Action) (start : Compilation σ) :
    (session actions start).generator.module =
      (lastModule? actions).getD start.generator.module := by
  induction actions generalizing start with
  | nil => rfl
  | cons action rest ih =>
    have tail := ih (stateOf (action.run start))
    rw [module_action] at tail
    rw [lastModule?_cons]
    refine tail.trans ?_
    cases lastModule? rest <;> rfl

end Compilation

/-- All commands of an action are tried in the module in which it ends. -/
theorem Action.module_of_mem_tried {σ : Type} [Sink σ] {action : Action} {before : Compilation σ}
    {state : Generator} {command : Command}
    (member : .compiled state command ∈ action.tried before) :
    state.module = (stateOf (action.run before)).generator.module := by
  rw [Compilation.module_action]
  cases action with
  | enterModule name => cases member
  | bootstrap => cases member
  | compile other =>
    cases List.mem_singleton.mp member
    rfl
  | compileAll commands =>
    exact Compilation.Steady.eq_of_mem_tried Compilation.steady_module_compile member
  | compileModule name source =>
    have moved := Compilation.module_enterModule name before
    rw [Action.tried] at member
    split at member
    · rename_i entered
      rw [entered] at moved
      have kept := Compilation.Steady.eq_of_mem_tried
        (Compilation.steady_module_compileItem name) member
      exact kept.trans moved
    · cases member

/-- The states in which a session is in a module: those that it reaches while the module is the one
that it has begun last, and those in which its next action hands commands to the generator. -/
inductive Generator.Inside (module : String) : Generator → Prop
  | reached {σ : Type} [Sink σ] {start : Compilation σ} {actions : List Action}
      (last : lastModule? actions = some module) :
      Inside module (Compilation.session actions start).generator
  | trying {σ : Type} [Sink σ] {start : Compilation σ} {actions : List Action} {action : Action}
      (last : lastModule? (actions ++ [action]) = some module) {state : Generator}
      {command : Command}
      (tried : .compiled state command ∈ action.tried (Compilation.session actions start)) :
      Inside module state

namespace Generator

variable {generator : Generator} {module : String}

theorem Inside.module_eq (inside : generator.Inside module) : generator.module = module := by
  cases inside with
  | reached last => rw [Compilation.module_session, last, Option.getD_some]
  | @trying _ _ start actions action last _ _ tried =>
    have whole := Compilation.module_session (actions ++ [action]) start
    rw [last, Option.getD_some, Compilation.session, List.foldl_concat] at whole
    exact (Action.module_of_mem_tried tried).trans whole

/-- A command is accepted in a state, and what is written for it refers to these symbols when it is
read back. -/
def Refers (generator : Generator) (command : Command) (names : List String) : Prop :=
  ∃ next block, generator.generate command = .ok (next, block) ∧
    references (Statement.ofSource block.text) = names

theorem refers_of_tidy {command : Command} {code : List Statement} (named : command.Named)
    (generated : generator.code command = .ok code) (tidy : Tidy code) :
    generator.Refers command (references code) := by
  have legal : (⟨command.text, code⟩ : Block).Legal :=
    ⟨newline_text named ⟨code, generated⟩, tidy.legal⟩
  refine ⟨generator.advance command, ⟨command.text, code⟩, ?_, ?_⟩
  · simp [generate, generated, bind, Except.bind, pure, Except.pure]
  · rw [legal.readable.ofSource_text]

/-- In a state a static goes by a symbol: the code that pushes it and the code that pops into it
refer to this symbol and to the stack pointer. -/
structure Names (generator : Generator) (index : Word) (name : String) : Prop where
  push : generator.Refers (.push .static index) [name, "SP"]
  pop : generator.Refers (.pop .static index) ["SP", name]

theorem isSymbol_staticSymbol (symbol : isSymbol generator.module = true) (index : Word) :
    isSymbol (generator.staticSymbol index) = true := by
  have named : (generator.enter generator.module).Named := ⟨symbol, symbol⟩
  exact named.staticSymbol index

theorem names_staticSymbol (symbol : isSymbol generator.module = true) (index : Word) :
    generator.Names index (generator.staticSymbol index) := by
  have named : (Code.Place.direct (generator.staticSymbol index)).Named :=
    isSymbol_staticSymbol symbol index
  constructor
  · exact @refers_of_tidy _ (.push .static index) _ trivial rfl (Code.tidy_pushFrom named)
  · exact @refers_of_tidy _ (.pop .static index) _ trivial rfl (Code.tidy_popTo named)

theorem Names.unique {index : Word} {name word : String} (names : generator.Names index name)
    (other : generator.Names index word) : name = word := by
  obtain ⟨next, block, made, refers⟩ := names.push
  obtain ⟨after, copy, again, same⟩ := other.push
  rw [made] at again
  cases again
  rw [refers] at same
  exact (List.cons.inj same).1

end Generator

/-- In all states in which a session is in a module, a static of it goes by this symbol and by no
other; and there are such states. -/
structure KnownBy (module : String) (index : Word) (name : String) : Prop where
  reachable : ∃ generator : Generator, generator.Inside module
  names : ∀ generator : Generator, generator.Inside module →
    ∀ word, generator.Names index word ↔ word = name

theorem knownBy_staticSymbol (entered : Generator) (symbol : isSymbol entered.module = true)
    (index : Word) : KnownBy entered.module index (entered.staticSymbol index) where
  reachable := by
    have last : lastModule? [.enterModule entered.module] = some entered.module := by
      simp [lastModule?, Action.module?, symbol]
    exact ⟨_, @Generator.Inside.reached _ MemorySink _ { sink := {} } _ last⟩
  names := by
    intro generator inside word
    have named : generator.Names index (generator.staticSymbol index) :=
      Generator.names_staticSymbol (inside.module_eq ▸ symbol) index
    rw [Generator.staticSymbol_eq_iff.mpr ⟨inside.module_eq, rfl⟩] at named
    constructor
    · exact fun other => other.unique named
    · rintro rfl
      exact named

/-- A symbol that cannot be taken for anything else. It is no numeral, signed or not, and neither
predefined nor a label of a comparison or of a loop in which a program ends. -/
structure Unreserved (name : String) : Prop where
  symbol : isSymbol name = true
  unsigned : Decimal.unsigned? name.toList = none
  signed : Decimal.signed? name.toList = none
  unknown : name ∉ predefined.map Prod.fst
  comparisons : ∀ count : Nat, name ≠ "TRUE_" ++ count.repr ∧ name ≠ "END_" ++ count.repr
  loops : name ≠ "VM$HALT" ∧ name ≠ "VM$END"

/-- No symbol with a dot is taken. -/
theorem unreserved_of_marked {name : String} (symbol : isSymbol name = true)
    (dotted : Marked ['.'] name) : Unreserved name where
  symbol := symbol
  unsigned := by simp only [Decimal.unsigned?, natural?_of_isSymbol symbol]
  signed := signed?_of_isSymbol symbol
  unknown known := not_marked_predefined known (dotted.mono (by simp))
  comparisons count := by
    have apart : name ∉ comparisonSymbols count := fun member =>
      (marked_comparisonSymbols member).2 (dotted.mono (by simp))
    simpa [comparisonSymbols] using apart
  loops := by
    have apart : name ∉ [Code.haltLabel, Code.endLabel] := fun member =>
      (marked_loops name member).2 (dotted.mono (by simp))
    simpa [Code.haltLabel, Code.endLabel] using apart

/-- Statics never alias. Let two modules have names that are accepted, whatever the names are. Each
static of the first one and each of the second one is known by one symbol throughout its module, and
the two symbols are equal if and only if the modules and the indices are. Neither symbol can be
taken for anything else. -/
theorem statics_never_alias {before other entered joined : Generator} {first second : String}
    (begun : before.enterModule first = .ok entered)
    (opened : other.enterModule second = .ok joined) (index offset : Word) :
    ∃ name word : String, KnownBy first index name ∧ KnownBy second offset word ∧
      (name = word ↔ first = second ∧ index = offset) ∧ Unreserved name ∧ Unreserved word := by
  obtain ⟨symbol, rfl⟩ := Generator.enterModule_ok_iff.mp begun
  obtain ⟨allowed, rfl⟩ := Generator.enterModule_ok_iff.mp opened
  have plain : ∀ (generator : Generator) (place : Word), isSymbol generator.module = true →
      Unreserved (generator.staticSymbol place) := fun generator place named =>
    unreserved_of_marked (Generator.isSymbol_staticSymbol named place)
      (marked_staticSymbol generator place)
  exact ⟨(before.enter first).staticSymbol index, (other.enter second).staticSymbol offset,
    knownBy_staticSymbol (before.enter first) symbol index,
    knownBy_staticSymbol (other.enter second) allowed offset,
    Generator.staticSymbol_eq_iff, plain _ index symbol, plain _ offset allowed⟩

/-- A session that comes to `Main` after a module whose name begins like it, and goes on with a
function and two refusals. -/
def dottedSession : List Action :=
  [.compileModule "Main.1" "push static 1", .enterModule "Main", .compile (.function "f" 0),
    .enterModule "no name", .compile (.pop .constant 0)]

theorem statics_never_alias_dotted : ∃ state other : Generator,
    state.Inside "Main" ∧ other.Inside "Main.1" ∧
      state.Names 11 "Main.11" ∧ other.Names 1 "Main.1.1" ∧
      ("Main.11" = "Main.1.1" ↔ "Main" = "Main.1" ∧ (11 : Word) = 1) ∧
      Unreserved "Main.11" ∧ Unreserved "Main.1.1" := by
  have begun : ({} : Generator).enterModule "Main" = .ok (({} : Generator).enter "Main") :=
    Generator.enterModule_ok_iff.mpr ⟨by decide, rfl⟩
  have opened : ({} : Generator).enterModule "Main.1" = .ok (({} : Generator).enter "Main.1") :=
    Generator.enterModule_ok_iff.mpr ⟨by decide, rfl⟩
  let start : Compilation MemorySink := { sink := {} }
  let state := (Compilation.session dottedSession start).generator
  let other : Generator := { module := "Main.1", scope := .module "Main.1" }
  have main : state.Inside "Main" := .reached (by decide)
  have part : other.Inside "Main.1" :=
    @Generator.Inside.trying _ MemorySink _ start [] (.compileModule "Main.1" "push static 1")
      (by decide) _ (.push .static 1) (by decide +kernel)
  have eleventh : state.staticSymbol 11 = "Main.11" := by
    rw [Generator.staticSymbol, main.module_eq]
    decide +kernel
  have first : other.staticSymbol 1 = "Main.1.1" := by decide +kernel
  obtain ⟨name, word, known, found, same, plain, free⟩ := statics_never_alias begun opened 11 1
  have here : state.Names 11 "Main.11" :=
    eleventh ▸ Generator.names_staticSymbol (main.module_eq ▸ by decide) 11
  have there : other.Names 1 "Main.1.1" := first ▸ Generator.names_staticSymbol (by decide) 1
  obtain rfl := (known.names state main _).mp here
  obtain rfl := (found.names other part _).mp there
  exact ⟨state, other, main, part, here, there, same, plain, free⟩

end HackStack
