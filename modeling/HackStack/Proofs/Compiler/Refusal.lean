import HackStack.Proofs.Compiler.Session

/-! Refusals. Which commands have no code, and why, is a matter of the command alone. A single
action that is refused changes nothing but the log, so a session without its refused actions ends in
the same state and has the same results otherwise. -/
namespace HackStack
open Assembly

def excess? (segment : Segment) (index : Word) (max : Nat) : Option Error :=
  if index.toNat ≤ max then none else some (.indexOutOfRange segment index max)

/-- Why a segment has no cell of that index. Every static has one. -/
def Segment.refusal? (segment : Segment) (index : Word) : Option Error :=
  match segment with
  | .static => none
  | .temp => excess? segment index 7
  | .pointer => excess? segment index 1
  | .constant | .locals | .arguments | .this | .that => excess? segment index maxConstant

/-- Why a command has no code. -/
def Command.refusal? : Command → Option Error
  | .arithmetic mnemonic =>
    if (Operation.ofMnemonic? mnemonic).isSome then none
    else some (.unsupportedOperation mnemonic)
  | .push segment index => segment.refusal? index
  | .pop .constant _ => some (.invalidSegment Segment.constant.name)
  | .pop segment index => segment.refusal? index
  | .call _ arguments => excess? .arguments arguments (maxConstant - 5)
  | .label _ | .goto _ | .ifGoto _ | .function _ _ | .ret => none

def judged : Option ε → Except ε Unit
  | none => .ok ()
  | some error => .error error

theorem map_bind_pure (action : Except ε α) (make : α → β) :
    (action >>= fun value => pure (make value)).map (fun _ => ()) = action.map fun _ => () := by
  cases action <;> rfl

namespace Generator

theorem checked_judged (segment : Segment) (index : Word) (max : Nat) :
    (checked segment index max).map (fun _ => ()) = judged (excess? segment index max) := by
  unfold checked excess?
  split_ifs
  · rfl
  · rfl

theorem place_judged (generator : Generator) {segment : Segment} (cell : segment ≠ .constant)
    (index : Word) :
    (generator.place segment index).map (fun _ => ()) = judged (segment.refusal? index) := by
  cases segment with
  | constant => exact absurd rfl cell
  | static => rfl
  | locals | arguments | this | that | temp | pointer =>
    exact (map_bind_pure _ _).trans (checked_judged _ _ _)

/-- Whether a command has code depends on the command alone, whatever the state of the generator. -/
theorem code_judged (generator : Generator) (command : Command) :
    (generator.code command).map (fun _ => ()) = judged command.refusal? := by
  cases command with
  | arithmetic mnemonic =>
    simp only [code, Command.refusal?]
    cases Operation.ofMnemonic? mnemonic <;> rfl
  | push segment index =>
    cases segment with
    | constant => exact (map_bind_pure _ _).trans (checked_judged _ _ _)
    | _ => exact (map_bind_pure _ _).trans (generator.place_judged (by decide) index)
  | pop segment index =>
    cases segment with
    | constant => rfl
    | _ => exact (map_bind_pure _ _).trans (generator.place_judged (by decide) index)
  | call name arguments => exact (map_bind_pure _ _).trans (checked_judged _ _ _)
  | label | goto | ifGoto | function | ret => rfl

theorem code_of_refusal (generator : Generator) {command : Command} {error : Error}
    (refused : command.refusal? = some error) : generator.code command = .error error := by
  have judgement := generator.code_judged command
  rw [refused] at judgement
  cases generated : generator.code command with
  | ok code =>
    rw [generated] at judgement
    cases judgement
  | error other =>
    rw [generated] at judgement
    cases judgement
    rfl

theorem exists_code (generator : Generator) {command : Command}
    (accepted : command.refusal? = none) : ∃ code, generator.code command = .ok code := by
  have judgement := generator.code_judged command
  rw [accepted] at judgement
  cases generated : generator.code command with
  | ok code => exact ⟨code, rfl⟩
  | error other =>
    rw [generated] at judgement
    cases judgement

end Generator

namespace Action

/-- An action that asks for one thing: a module, the start of a program, or the code of one
command. -/
def Single : Action → Prop
  | .enterModule _ | .bootstrap | .compile _ => True
  | .compileAll _ | .compileModule _ _ => False

instance : ∀ action : Action, Decidable action.Single
  | .enterModule _ | .bootstrap | .compile _ => .isTrue trivial
  | .compileAll _ | .compileModule _ _ => .isFalse id

theorem course_of_refused {action : Action} (single : action.Single) {generator : Generator}
    {failure : Failure} (refused : (action.course generator).result = .error failure) :
    action.course generator = .still generator (.error failure) := by
  cases action with
  | enterModule name =>
    simp only [course, Course.enter] at refused ⊢
    split at refused
    · cases refused
    · exact congrArg (Course.still generator) refused
  | bootstrap =>
    simp only [course, Course.start] at refused ⊢
    split_ifs at refused ⊢
    exact congrArg (Course.still generator) refused
  | compile command =>
    simp only [course, Course.compile] at refused ⊢
    split at refused
    · cases refused
    · exact congrArg (Course.still generator) refused
  | compileAll commands => exact single.elim
  | compileModule name source => exact single.elim

end Action

namespace Compilation

variable {σ : Type}

/-- The same state apart from the log. -/
structure Same (first second : Compilation σ) : Prop where
  generator : first.generator = second.generator
  sink : first.sink = second.sink

theorem Same.refl (state : Compilation σ) : Same state state := ⟨rfl, rfl⟩

variable [Sink σ]

def results : List Action → Compilation σ → List (Action × Except Failure Unit)
  | [], _ => []
  | action :: rest, before =>
    (action, resultOf (action.run before)) :: results rest (stateOf (action.run before))

def succeeding (actions : List Action) (start : Compilation σ) : List Action :=
  ((results actions start).filter fun entry => entry.2.isOk).map Prod.fst

end Compilation

namespace Unfailing

open Compilation

variable {σ : Type} [Sink σ] {content : σ → ByteArray} {usable : σ → Prop}

theorem run_same (unfailing : Unfailing content usable) (action : Action)
    {first second : Compilation σ} (same : Same first second) (ready : usable first.sink) :
    resultOf (action.run first) = resultOf (action.run second) ∧
      Same (stateOf (action.run first)) (stateOf (action.run second)) ∧
      usable (stateOf (action.run first)).sink := by
  obtain ⟨generator, sink, log⟩ := first
  obtain ⟨_, _, other⟩ := second
  obtain ⟨rfl, rfl⟩ := same
  obtain ⟨after, written, still, -⟩ :=
    unfailing.writeAll (chunksOf (action.course generator).emissions) ready
  obtain ⟨left, first⟩ := (follows_action action ⟨generator, sink, log⟩).taken after written
  obtain ⟨right, second⟩ := (follows_action action ⟨generator, sink, other⟩).taken after written
  rw [first, second]
  simp only [resultOf_ending, stateOf_ending]
  exact ⟨trivial, ⟨rfl, rfl⟩, still⟩

/-- A single action that is refused leaves all but the log as it was. -/
theorem run_refused (unfailing : Unfailing content usable) {action : Action}
    (single : action.Single) {before : Compilation σ} (ready : usable before.sink)
    {failure : Failure} (refused : resultOf (action.run before) = .error failure) :
    Same (stateOf (action.run before)) before := by
  have course : (action.course before.generator).result = .error failure :=
    (unfailing.action action ready).1.symm.trans refused
  have follows := follows_action action before
  rw [Action.course_of_refused single course] at follows
  obtain ⟨log, ended⟩ := follows.taken before.sink rfl
  rw [ended, stateOf_ending]
  exact ⟨rfl, rfl⟩

theorem session_usable (unfailing : Unfailing content usable) (actions : List Action)
    {start : Compilation σ} (ready : usable start.sink) :
    usable (Compilation.session actions start).sink := by
  induction actions generalizing start with
  | nil => exact ready
  | cons action rest ih => exact ih (unfailing.action action ready).2.2.1

/-- From states that differ in the log only, the succeeding actions of a session give the session's
state and those of its results that are no refusals. -/
theorem session_succeeding (unfailing : Unfailing content usable) {actions : List Action}
    (single : ∀ action ∈ actions, action.Single) {start other : Compilation σ}
    (same : Same start other) (ready : usable start.sink) :
    Same (Compilation.session (succeeding actions start) other)
        (Compilation.session actions start) ∧
      results (succeeding actions start) other =
        (results actions start).filter fun entry => entry.2.isOk := by
  induction actions generalizing start other with
  | nil => exact ⟨⟨same.generator.symm, same.sink.symm⟩, rfl⟩
  | cons action rest ih =>
    obtain ⟨agrees, after, still⟩ := unfailing.run_same action same ready
    have others : ∀ action ∈ rest, action.Single :=
      fun action member => single action (List.mem_cons_of_mem _ member)
    cases result : resultOf (action.run start) with
    | ok value =>
      have kept : succeeding (action :: rest) start =
          action :: succeeding rest (stateOf (action.run start)) := by
        simp [succeeding, results, result, Except.isOk, Except.toBool]
      obtain ⟨final, listed⟩ := ih others after still
      rw [kept]
      refine ⟨final, ?_⟩
      simp only [results, ← agrees, result]
      rw [listed]
      rfl
    | error failure =>
      have dropped : succeeding (action :: rest) start =
          succeeding rest (stateOf (action.run start)) := by
        simp [succeeding, results, result, Except.isOk, Except.toBool]
      have unchanged := unfailing.run_refused (single action List.mem_cons_self) ready result
      have onward : Same (stateOf (action.run start)) other :=
        ⟨unchanged.generator.trans same.generator, unchanged.sink.trans same.sink⟩
      obtain ⟨final, listed⟩ := ih others onward still
      rw [dropped]
      refine ⟨final, ?_⟩
      simp only [results, result]
      rw [listed]
      rfl

theorem compile_judged (unfailing : Unfailing content usable) (command : Command)
    {before : Compilation σ} (ready : usable before.sink) :
    resultOf (Compilation.compile command before) = judged command.refusal? := by
  rw [compile_eq]
  cases refusal : command.refusal? with
  | some error => simp only [before.generator.code_of_refusal refusal, resultOf, judged]
  | none =>
    obtain ⟨code, generated⟩ := before.generator.exists_code refusal
    obtain ⟨after, written, -⟩ := unfailing.writeAll (Block.chunks ⟨command.text, code⟩) ready
    obtain ⟨generator, sink, log⟩ := before
    simp only at generated written
    simp only [generated, emit, written, resultOf, judged]

end Unfailing

open Compilation

/-- Refused actions leave no trace. In a session of single actions over a sink that never fails,
whatever is refused leaves the generator and the sink exactly as they were. Without the refused
actions the session ends in the same state, with the same bytes, and all other results are the same.
Whether a command is refused, and why, depends on the command alone and not on the state. -/
theorem refused_actions_leave_no_trace {σ : Type} [Sink σ] {content : σ → ByteArray}
    {usable : σ → Prop} (unfailing : Unfailing content usable) {actions : List Action}
    (single : ∀ action ∈ actions, action.Single) {start : Compilation σ}
    (ready : usable start.sink) :
    (∀ earlier action later, actions = earlier ++ action :: later → ∀ failure,
        resultOf (action.run (session earlier start)) = .error failure →
        Same (stateOf (action.run (session earlier start))) (session earlier start)) ∧
      Same (session (succeeding actions start) start) (session actions start) ∧
      results (succeeding actions start) start =
        ((results actions start).filter fun entry => entry.2.isOk) ∧
      ∀ (command : Command) (before : Compilation σ), usable before.sink →
        resultOf (compile command before) = judged command.refusal? := by
  obtain ⟨final, others⟩ := unfailing.session_succeeding single (.refl start) ready
  refine ⟨?_, final, others, fun command before open_ => unfailing.compile_judged command open_⟩
  rintro earlier action later rfl failure refused
  have alone : action.Single := single action (by simp)
  exact unfailing.run_refused alone (unfailing.session_usable earlier ready) refused

/-- A session in which every kind of single action is refused once, before and after code has been
written. -/
def hastySession : List Action :=
  [.enterModule "M", .compile (.push .constant 40000), .compile (.arithmetic "eq"), .bootstrap,
    .enterModule "no name", .compile (.pop .constant 0), .compile (.call "M.f" 40000),
    .compile (.call "M.f" 1)]

theorem refused_actions_leave_no_trace_hasty :
    let start : Compilation MemorySink := { sink := {} }
    let accepted : List Action :=
      [.enterModule "M", .compile (.arithmetic "eq"), .compile (.call "M.f" 1)]
    (∀ action ∈ hastySession, action.Single) ∧ succeeding hastySession start = accepted ∧
      Same (session accepted start) (session hastySession start) ∧
      results accepted start =
        ((results hastySession start).filter fun entry => entry.2.isOk) := by
  intro start accepted
  have single : ∀ action ∈ hastySession, action.Single := by decide
  have kept : succeeding hastySession start = accepted := by decide +kernel
  obtain ⟨-, final, others, -⟩ :=
    @refused_actions_leave_no_trace _ _ _ _ unfailing_unlimited _ single start ⟨rfl, rfl⟩
  rw [kept] at final others
  exact ⟨single, kept, final, others⟩

end HackStack
