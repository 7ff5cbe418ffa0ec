import HackStack.Proofs.Compiler.Session

/-! The scope of labels. A function command sets it, also if the sink refuses the function's code.
From then on it stays, through calls, returns, refusals and failures of the sink, until a module or
another function begins. -/
namespace HackStack

/-- An action that begins neither a function nor a module. A module with a name that is refused does
not begin. -/
def Action.Stays : Action → Prop
  | .enterModule name | .compileModule name _ => isSymbol name = false
  | .bootstrap => True
  | .compile command => command.isFunction = false
  | .compileAll commands => ∀ command ∈ commands, command.isFunction = false

instance : ∀ action : Action, Decidable action.Stays
  | .enterModule name | .compileModule name _ =>
    inferInstanceAs (Decidable (isSymbol name = false))
  | .bootstrap => .isTrue trivial
  | .compile command => inferInstanceAs (Decidable (command.isFunction = false))
  | .compileAll commands =>
    inferInstanceAs (Decidable (∀ command ∈ commands, command.isFunction = false))

theorem Generator.enterModule_of_not_isSymbol {generator : Generator} {name : String}
    (refused : isSymbol name = false) :
    generator.enterModule name = .error (.invalidModuleName name) := by
  simp [enterModule, refused]

namespace Compilation

variable {σ : Type}

/-- Whether it succeeds or fails, an action leaves a part of the generator's state as it was. -/
def Steady (part : Generator → γ) (action : CompileM σ ε α) : Prop :=
  ∀ before : Compilation σ, part (stateOf (action before)).generator = part before.generator

variable {part : Generator → γ}

theorem Steady.bind {action : CompileM σ ε α} {next : α → CompileM σ ε β}
    (first : Steady part action) (second : ∀ value, Steady part (next value)) :
    Steady part (action >>= next) := by
  intro before
  have middle := first before
  rw [run_bind]
  cases ended : action before with
  | ok value after =>
    rw [ended] at middle
    exact (second value after).trans middle
  | error failure after =>
    rw [ended] at middle
    exact middle

theorem Steady.forM {action : α → CompileM σ ε Unit} {entries : List α}
    (each : ∀ entry ∈ entries, Steady part (action entry)) : Steady part (entries.forM action) := by
  induction entries with
  | nil => exact fun _ => rfl
  | cons entry rest ih =>
    rw [List.forM_eq_forM, List.forM_cons]
    exact (each entry List.mem_cons_self).bind fun _ =>
      ih fun other member => each other (List.mem_cons_of_mem _ member)

theorem Steady.within {action : CompileM σ Error α} (steady : Steady part action)
    (contexts : List Context) : Steady part (within contexts action) := by
  intro before
  rw [stateOf_within]
  exact steady before

theorem steady_enterModule {name : String} (refused : isSymbol name = false) :
    Steady part (enterModule name : CompileM σ Error Unit) := by
  intro before
  rw [enterModule_eq, Generator.enterModule_of_not_isSymbol refused]
  rfl

variable [Sink σ]

/-- The new state of the generator is taken over whatever the sink does. -/
theorem generator_emit (made : Generator × Block) (before : Compilation σ) :
    (stateOf (emit made before)).generator = made.1 := by
  obtain ⟨generator, sink, log⟩ := before
  obtain ⟨next, block⟩ := made
  simp only [emit]
  cases Sink.writeAll block.chunks sink <;> rfl

theorem generator_compile (command : Command) (before : Compilation σ) :
    (stateOf (compile command before)).generator =
      if (before.generator.code command).isOk then before.generator.advance command
      else before.generator := by
  rw [compile_eq]
  cases before.generator.code command with
  | ok code => exact generator_emit ..
  | error error => rfl

theorem steady_compile {command : Command}
    (kept : ∀ generator : Generator, part (generator.advance command) = part generator) :
    Steady part (compile command : CompileM σ Error Unit) := by
  intro before
  rw [generator_compile]
  split
  · exact kept before.generator
  · rfl

theorem steady_bootstrap
    (started : ∀ generator : Generator, part generator.setStack.1 = part generator)
    (called : ∀ generator : Generator, part generator.callEntry.1 = part generator) :
    Steady part (bootstrap : CompileM σ Error Unit) := by
  intro before
  rw [bootstrap_eq]
  split
  · rfl
  · rw [run_bind]
    have first := generator_emit before.generator.setStack
      { before with log := before.log.push (.bootstrapping Code.entryFunction) }
    cases ended : emit before.generator.setStack
        { before with log := before.log.push (.bootstrapping Code.entryFunction) } with
    | ok _ after =>
      have second := generator_emit before.generator.setStack.1.callEntry after
      exact (congrArg part second).trans ((called _).trans (started _))
    | error failure after =>
      rw [ended] at first
      exact (congrArg part first).trans (started _)

/-- An action that begins neither a function nor a module leaves the scope as it was. -/
theorem steady_action {action : Action} (stays : action.Stays) :
    Steady Generator.scope (action.run : CompileM σ Failure Unit) := by
  have command : ∀ {command : Command}, command.isFunction = false →
      Steady Generator.scope (compile command : CompileM σ Error Unit) := fun plain =>
    steady_compile fun _ => Generator.advance_scope plain
  cases action with
  | enterModule name => exact (steady_enterModule stays).within []
  | bootstrap => exact (steady_bootstrap (fun _ => rfl) fun _ => rfl).within []
  | compile _ => exact (command stays).within []
  | compileAll commands =>
    exact (Steady.forM fun other member => command (stays other member)).within []
  | compileModule name source =>
    intro before
    have refused := enterModule_eq name before
    rw [Generator.enterModule_of_not_isSymbol stays] at refused
    simp only [Action.run, compileModule, run_bind, within_of_error _ refused]
    rfl

/-- The scope outlasts any session of such actions. -/
theorem scope_session {actions : List Action} (stays : ∀ action ∈ actions, action.Stays)
    (start : Compilation σ) :
    (session actions start).generator.scope = start.generator.scope := by
  induction actions generalizing start with
  | nil => rfl
  | cons action rest ih =>
    have tail := ih (fun other member => stays other (List.mem_cons_of_mem _ member))
      (stateOf (action.run start))
    exact tail.trans (steady_action (stays action List.mem_cons_self) start)

end Compilation

namespace Action

variable {generator state : Generator} {command : Command}

theorem scope_of_mem_each {commands : List Command}
    (stays : ∀ command ∈ commands, command.isFunction = false)
    (member : .compiled state command ∈
      (Course.each (Course.compile []) commands generator).emissions) :
    state.scope = generator.scope := by
  induction commands generalizing generator with
  | nil => cases member
  | cons first rest ih =>
    rw [Course.each] at member
    cases generated : generator.code first with
    | error error =>
      simp only [Course.compile, generated] at member
      cases member
    | ok code =>
      simp only [Course.compile, generated] at member
      rcases List.mem_cons.mp member with here | later
      · cases here
        rfl
      · have tail := ih (fun other among => stays other (List.mem_cons_of_mem _ among)) later
        exact tail.trans (Generator.advance_scope (stays first List.mem_cons_self))

/-- Whatever an action compiles that begins neither a function nor a module, it compiles in the
scope in which it starts. -/
theorem scope_of_mem_course {action : Action} (stays : action.Stays)
    (member : .compiled state command ∈ (action.course generator).emissions) :
    state.scope = generator.scope := by
  cases action with
  | enterModule name =>
    simp only [course, Course.enter, Generator.enterModule_of_not_isSymbol stays] at member
    cases member
  | bootstrap =>
    simp only [course, Course.start] at member
    split at member
    · cases member
    · simp at member
  | compile first =>
    have same : (Course.compile [] first generator).emissions =
        (Course.each (Course.compile []) [first] generator).emissions :=
      congrArg Course.emissions (Course.andThen_still _).symm
    refine scope_of_mem_each (fun other among => ?_) (same ▸ member)
    rw [List.mem_singleton.mp among]
    exact stays
  | compileAll commands => exact scope_of_mem_each stays member
  | compileModule name source =>
    simp only [course, Course.module, Course.enter,
      Generator.enterModule_of_not_isSymbol stays] at member
    cases member

end Action
end HackStack
