import HackStack.Proofs.Compiler.Scoping

/-! The start of a program comes first. Whether a compilation has begun to write is kept in the
generator. It has from the first block on that is handed to the sink, whether or not the sink takes
it; until then the sink has not been touched. So the code that starts a program is tried at most
once, and what stands before it in a sink was there before the compilation. -/
namespace HackStack
open Assembly

namespace Compilation

variable {σ : Type}

/-- The commands that entries hand to the generator, each with the state in which it is tried. It is
an entry's turn if all before it have succeeded. -/
def tried (command? : α → Option Command) (action : α → CompileM σ ε Unit) :
    List α → Compilation σ → List Site
  | [], _ => []
  | entry :: rest, before =>
    (command? entry).toList.map (.compiled before.generator) ++
      match action entry before with
      | .ok _ after => tried command? action rest after
      | .error _ _ => []

end Compilation

/-- The generator has code for one of the places. -/
def SomeAccepted (sites : List Site) : Prop := ∃ site ∈ sites, site.Accepted

theorem not_someAccepted_nil : ¬ SomeAccepted [] := by
  rintro ⟨site, member, -⟩
  cases member

theorem someAccepted_singleton {site : Site} : SomeAccepted [site] ↔ site.Accepted := by
  simp [SomeAccepted]

theorem someAccepted_append {first second : List Site} :
    SomeAccepted (first ++ second) ↔ SomeAccepted first ∨ SomeAccepted second := by
  simp only [SomeAccepted, List.mem_append, or_and_right, exists_or]

def lateStart : Failure := { cause := .compiling .lateBootstrap }

def sinkFailure (cause : StorageError) : Failure := { cause := .compiling (.sink cause) }

namespace Action

variable {σ : Type} [Sink σ]

def tried : Action → Compilation σ → List Site
  | .enterModule _, _ | .bootstrap, _ => []
  | .compile command, before => [.compiled before.generator command]
  | .compileAll commands, before => Compilation.tried some Compilation.compile commands before
  | .compileModule name source, before =>
    match Compilation.enterModule name before with
    | .ok _ entered =>
      Compilation.tried (fun item => item.outcome.toOption) (Compilation.compileItem name)
        (Source.items source) entered
    | .error _ _ => []

/-- The action is a start that is not refused as late, or tries a command that the generator
accepts. Whether the sink takes the code does not matter. -/
def Begins (action : Action) (before : Compilation σ) : Prop :=
  action = .bootstrap ∧ resultOf (action.run before) ≠ .error lateStart ∨
    SomeAccepted (action.tried before)

end Action

namespace Compilation

variable {σ : Type}

/-- What the flag of the generator marks. If something begins between two states, the later one has
started; if nothing does, the sink is untouched and the flag as it was. -/
structure Marks (begins : Prop) (before after : Compilation σ) : Prop where
  begun : begins → after.generator.started = true
  quiet : ¬ begins → after.sink = before.sink ∧
    after.generator.started = before.generator.started

theorem Marks.trans {first second : Prop} {before middle after : Compilation σ}
    (head : Marks first before middle) (tail : Marks second middle after) :
    Marks (first ∨ second) before after where
  begun := by
    rintro (begins | begins)
    · by_cases again : second
      · exact tail.begun again
      · rw [(tail.quiet again).2]
        exact head.begun begins
    · exact tail.begun begins
  quiet := by
    intro none
    obtain ⟨first, second⟩ := not_or.mp none
    obtain ⟨sink, flag⟩ := head.quiet first
    obtain ⟨same, still⟩ := tail.quiet second
    exact ⟨same.trans sink, still.trans flag⟩

theorem Marks.congr {first second : Prop} {before after : Compilation σ}
    (marks : Marks first before after) (same : second ↔ first) : Marks second before after where
  begun begins := marks.begun (same.mp begins)
  quiet none := marks.quiet fun begins => none (same.mpr begins)

theorem marks_enterModule (name : String) (before : Compilation σ) :
    Marks False before (stateOf (enterModule name before)) := by
  refine ⟨False.elim, fun _ => ?_⟩
  rw [enterModule_eq]
  cases entered : before.generator.enterModule name with
  | ok next =>
    obtain ⟨-, rfl⟩ := Generator.enterModule_ok_iff.mp entered
    exact ⟨rfl, rfl⟩
  | error error => exact ⟨rfl, rfl⟩

theorem marks_nothing (before : Compilation σ) : Marks (SomeAccepted []) before before :=
  ⟨fun begins => absurd begins not_someAccepted_nil, fun _ => ⟨rfl, rfl⟩⟩

/-- A loop begins something if one of the commands that it tries is accepted. -/
theorem marks_forM {command? : α → Option Command} {action : α → CompileM σ ε Unit}
    (one : ∀ entry (before : Compilation σ),
      Marks (SomeAccepted ((command? entry).toList.map (Site.compiled before.generator))) before
        (stateOf (action entry before)))
    (entries : List α) (before : Compilation σ) :
    Marks (SomeAccepted (tried command? action entries before)) before
      (stateOf (entries.forM action before)) := by
  induction entries generalizing before with
  | nil => exact marks_nothing before
  | cons entry rest ih =>
    have first := one entry before
    rw [List.forM_eq_forM, List.forM_cons, run_bind, tried]
    cases ended : action entry before with
    | ok value after =>
      rw [ended] at first
      exact (first.trans (ih after)).congr someAccepted_append
    | error failure after =>
      rw [ended] at first
      simpa only [List.append_nil] using first

variable [Sink σ]

theorem marks_compile (command : Command) (before : Compilation σ) :
    Marks (SomeAccepted [.compiled before.generator command]) before
      (stateOf (compile command before)) := by
  refine Marks.congr ⟨?_, ?_⟩ someAccepted_singleton
  · rintro ⟨code, generated⟩
    rw [generator_compile, generated]
    exact before.generator.advance_started command
  · intro refused
    rw [compile_eq]
    cases generated : before.generator.code command with
    | ok code => exact absurd ⟨code, generated⟩ refused
    | error error => exact ⟨rfl, rfl⟩

theorem marks_compileItem (name : String) (item : Source.Item) (before : Compilation σ) :
    Marks (SomeAccepted (item.outcome.toOption.toList.map (Site.compiled before.generator))) before
      (stateOf (compileItem name item before)) := by
  rw [compileItem, stateOf_within]
  cases item.outcome with
  | ok command => exact marks_compile command before
  | error error => exact marks_nothing before

/-- The pieces in which the start of a program is written. -/
def startChunks (generator : Generator) : List String :=
  chunksOf [.setStack, .callEntry generator.setStack.1]

/-- A start that comes first hands its code to the sink and fails only if the sink does. -/
theorem bootstrap_waiting {before : Compilation σ} (waiting : before.generator.started = false) :
    resultOf (Action.bootstrap.run before) =
        (resultOf (Sink.writeAll (startChunks before.generator) before.sink)).mapError
          sinkFailure ∧
      (stateOf (Action.bootstrap.run before)).sink =
        stateOf (Sink.writeAll (startChunks before.generator) before.sink) ∧
      (stateOf (Action.bootstrap.run before)).generator.started = true := by
  have pieces : startChunks before.generator =
      before.generator.setStack.2.chunks ++ before.generator.setStack.1.callEntry.2.chunks := rfl
  have same := bootstrap_eq before
  obtain ⟨generator, sink, log⟩ := before
  simp only at waiting pieces
  simp only [waiting, Bool.false_eq_true, if_false, run_bind, emit] at same
  rw [pieces, writeAll_append]
  simp only [Action.run, within, EStateM.adaptExcept, same]
  cases first : Sink.writeAll generator.setStack.2.chunks sink with
  | error cause middle => exact ⟨rfl, rfl, rfl⟩
  | ok _ middle =>
    simp only
    cases Sink.writeAll generator.setStack.1.callEntry.2.chunks middle with
    | error cause after => exact ⟨rfl, rfl, rfl⟩
    | ok _ after => exact ⟨rfl, rfl, rfl⟩

theorem bootstrap_started {before : Compilation σ} (started : before.generator.started = true) :
    Action.bootstrap.run before = .error lateStart before := by
  have same := bootstrap_eq before
  rw [if_pos started] at same
  exact within_of_error [] same

theorem late_iff_started {before : Compilation σ} :
    resultOf (Action.bootstrap.run before) = .error lateStart ↔
      before.generator.started = true := by
  constructor
  · intro late
    by_contra waiting
    rw [(bootstrap_waiting (Bool.eq_false_iff.mpr waiting)).1] at late
    cases written : resultOf (Sink.writeAll (startChunks before.generator) before.sink) with
    | ok value =>
      rw [written] at late
      cases late
    | error cause =>
      rw [written] at late
      cases late
  · intro started
    rw [bootstrap_started started]
    rfl

/-- An action marks the generator exactly if it begins something. -/
theorem marks_action (action : Action) (before : Compilation σ) :
    Marks (action.Begins before) before (stateOf (action.run before)) := by
  cases action with
  | enterModule name =>
    rw [Action.run, stateOf_within]
    refine (marks_enterModule name before).congr ?_
    simp [Action.Begins, Action.tried, not_someAccepted_nil]
  | bootstrap =>
    constructor
    · rintro (⟨-, first⟩ | tries)
      · rw [ne_eq, late_iff_started, Bool.not_eq_true] at first
        exact (bootstrap_waiting first).2.2
      · exact absurd tries not_someAccepted_nil
    · intro none
      have late : resultOf (Action.bootstrap.run before) = .error lateStart := by
        by_contra first
        exact none (.inl ⟨rfl, first⟩)
      rw [bootstrap_started (late_iff_started.mp late)]
      exact ⟨rfl, rfl⟩
  | compile command =>
    rw [Action.run, stateOf_within]
    exact (marks_compile command before).congr (by simp [Action.Begins, Action.tried])
  | compileAll commands =>
    rw [Action.run, stateOf_within]
    have loop := @marks_forM _ _ _ some compile marks_compile commands before
    exact loop.congr (by simp [Action.Begins, Action.tried])
  | compileModule name source =>
    have entering := marks_enterModule name before
    rw [Action.run, compileModule, run_bind]
    cases entered : enterModule name before with
    | ok value after =>
      have passed : within [.usingModule name] (enterModule name) before = .ok value after := by
        simp only [within, EStateM.adaptExcept, entered]
      rw [entered] at entering
      rw [passed]
      have loop := marks_forM (marks_compileItem name) (Source.items source) after
      refine (entering.trans loop).congr ?_
      simp [Action.Begins, Action.tried, entered]
    | error error after =>
      rw [entered] at entering
      rw [within_of_error _ entered]
      refine entering.congr ?_
      simp [Action.Begins, Action.tried, entered, not_someAccepted_nil]

def Begun (actions : List Action) (start : Compilation σ) : Prop :=
  ∃ earlier action later, actions = earlier ++ action :: later ∧
    action.Begins (session earlier start)

theorem begun_cons {action : Action} {rest : List Action} {start : Compilation σ} :
    Begun (action :: rest) start ↔
      action.Begins start ∨ Begun rest (stateOf (action.run start)) := by
  constructor
  · rintro ⟨earlier, other, later, split, begins⟩
    cases earlier with
    | nil =>
      obtain ⟨rfl, rfl⟩ := List.cons.inj split
      exact .inl begins
    | cons _ earlier =>
      obtain ⟨rfl, rfl⟩ := List.cons.inj split
      exact .inr ⟨earlier, other, later, rfl, begins⟩
  · rintro (begins | ⟨earlier, other, later, rfl, begins⟩)
    · exact ⟨[], action, rest, rfl, begins⟩
    · exact ⟨action :: earlier, other, later, rfl, begins⟩

/-- A session marks the generator exactly if one of its actions begins something. -/
theorem marks_session (actions : List Action) (start : Compilation σ) :
    Marks (Begun actions start) start (session actions start) := by
  induction actions generalizing start with
  | nil =>
    refine ⟨?_, fun _ => ⟨rfl, rfl⟩⟩
    rintro ⟨earlier, action, later, split, -⟩
    simp at split
  | cons action rest ih => exact ((marks_action action start).trans (ih _)).congr begun_cons

/-- From a new compilation, a start is late exactly if something has been begun. -/
theorem late_iff_begun (actions : List Action) (sink : σ) :
    resultOf (Action.bootstrap.run (session actions { sink })) = .error lateStart ↔
      Begun actions { sink } := by
  have marks := marks_session actions { sink }
  rw [late_iff_started]
  constructor
  · intro started
    by_contra none
    rw [(marks.quiet none).2] at started
    cases started
  · exact marks.begun

end Compilation

def IsStart (emissions : List Emission) : Prop :=
  ∃ generator, emissions = [.setStack, .callEntry generator]

def OnlyCommands (emissions : List Emission) : Prop :=
  ∀ emission ∈ emissions, ∃ generator command, emission = .compiled generator command

theorem OnlyCommands.append {first second : List Emission} (head : OnlyCommands first)
    (tail : OnlyCommands second) : OnlyCommands (first ++ second) := by
  intro emission member
  exact (List.mem_append.mp member).elim (head emission) (tail emission)

/-- Between two states of the generator code of commands is written, with the start of a program
before it only if nothing had been written yet. -/
structure Opens (before : Generator) (emissions : List Emission) (after : Generator) : Prop where
  ordered : ∃ front rest, emissions = front ++ rest ∧
    (front = [] ∨ before.started = false ∧ IsStart front) ∧ OnlyCommands rest
  marked : emissions ≠ [] → after.started = true
  kept : before.started = true → after.started = true

namespace Opens

variable {before middle after : Generator} {first second : List Emission}

theorem nothing (same : after.started = before.started) : Opens before [] after where
  ordered := ⟨[], [], rfl, .inl rfl, by simp [OnlyCommands]⟩
  marked none := absurd rfl none
  kept started := same.trans started

/-- A second part that begins with a start stands at the front, since nothing can precede it. -/
theorem append (head : Opens before first middle) (tail : Opens middle second after) :
    Opens before (first ++ second) after where
  ordered := by
    obtain ⟨front, rest, rfl, none | ⟨waiting, start⟩, commands⟩ := tail.ordered
    · obtain ⟨opening, earlier, rfl, form, before⟩ := head.ordered
      exact ⟨opening, earlier ++ rest, by simp [none], form, before.append commands⟩
    · have empty : first = [] := by
        by_contra some
        exact absurd (head.marked some) (by simp [waiting])
      have fresh : before.started = false := by
        by_contra started
        exact absurd (head.kept (by simpa using started)) (by simp [waiting])
      exact ⟨front, rest, by simp [empty], .inr ⟨fresh, start⟩, commands⟩
  marked some := by
    by_cases empty : second = []
    · exact tail.kept (head.marked fun none => some (by simp [none, empty]))
    · exact tail.marked empty
  kept started := tail.kept (head.kept started)

end Opens

theorem carried_opens : Carried Opens where
  still _ := .nothing rfl
  append := Opens.append
  enter := by
    intro generator name entered entering
    obtain ⟨-, rfl⟩ := Generator.enterModule_ok_iff.mp entering
    exact .nothing rfl
  start := by
    intro generator waiting
    have none : OnlyCommands [] := by simp [OnlyCommands]
    exact ⟨⟨_, [], (List.append_nil _).symm, .inr ⟨waiting, _, rfl⟩, none⟩, fun _ => rfl,
      fun _ => rfl⟩
  compile := by
    intro generator command _ _
    have started := generator.advance_started command
    exact ⟨⟨[], _, rfl, .inl rfl, by simp [OnlyCommands]⟩, fun _ => started, fun _ => started⟩

/-- The code that starts a program is only ever the first output. After any actions on a new
compilation, whatever the sink did, a start is refused as late exactly if an earlier action has
begun something, and then it does nothing. Otherwise the sink is the one that the compilation was
made with, all of the start's code is handed to it, and every later start is late. So over a sink
that never fails, the blocks of the session are the two of a start, if they are there at all, and
behind them nothing but code of commands. -/
theorem start_comes_first {σ : Type} [Sink σ] (actions : List Action) (sink : σ) :
    let before := Compilation.session actions { sink }
    let ended := Action.bootstrap.run before
    let written := Sink.writeAll (Compilation.startChunks before.generator) sink
    (resultOf ended = .error lateStart ↔ Compilation.Begun actions { sink }) ∧
      (resultOf ended = .error lateStart → stateOf ended = before) ∧
      (resultOf ended ≠ .error lateStart →
        before.sink = sink ∧ resultOf ended = (resultOf written).mapError sinkFailure ∧
          (stateOf ended).sink = stateOf written ∧
          ∀ later, resultOf (Action.bootstrap.run
            (Compilation.session (actions ++ .bootstrap :: later) { sink })) = .error lateStart) ∧
      ∀ (content : σ → ByteArray) (usable : σ → Prop), Unfailing content usable → usable sink →
        ∃ front rest, sessionEmissions actions {} = front ++ rest ++ [.close] ∧
          content before.sink = content sink ++ (outputOf (front ++ rest)).toUTF8 ∧
          (front = [] ∨ IsStart front) ∧ OnlyCommands rest := by
  intro before ended written
  have late : resultOf ended = .error lateStart ↔ before.generator.started = true :=
    Compilation.late_iff_started
  refine ⟨Compilation.late_iff_begun actions sink, fun refused => ?_, fun first => ?_, ?_⟩
  · exact congrArg stateOf (Compilation.bootstrap_started (late.mp refused))
  · have none : ¬ Compilation.Begun actions { sink } := by
      rwa [← Compilation.late_iff_begun]
    have untouched : before.sink = sink :=
      ((Compilation.marks_session actions { sink }).quiet none).1
    have waiting : before.generator.started = false := by
      rwa [ne_eq, late, Bool.not_eq_true] at first
    obtain ⟨result, after, -⟩ := Compilation.bootstrap_waiting waiting
    rw [untouched] at result after
    refine ⟨untouched, result, after, fun later => ?_⟩
    rw [Compilation.late_iff_begun]
    exact ⟨actions, .bootstrap, later, rfl, .inl ⟨rfl, first⟩⟩
  · intro content usable unfailing ready
    obtain ⟨emissions, blocks, ⟨⟨front, rest, rfl, form, commands⟩, -, -⟩, taken⟩ :=
      @Unfailing.session_carried σ _ content usable unfailing _ carried_opens actions { sink } ready
    exact ⟨front, rest, blocks, taken, form.imp_right And.right, commands⟩

end HackStack
