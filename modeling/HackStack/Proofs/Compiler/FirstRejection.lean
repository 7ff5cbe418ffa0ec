import HackStack.Proofs.Compiler.Refusal
import HackStack.Proofs.Source.Grammar

/-! A module is compiled up to the first line that is rejected, be it by the reader or by the
generator. What is written, the state that is reached and the failure are then known from the source
alone, and reading all commands before compiling them makes no difference. -/
namespace HackStack
open Assembly

namespace Source

/-- Why an item has no code: its line is no command, or its command is refused. -/
def Item.rejection? (item : Item) : Option Error :=
  match item.outcome with
  | .ok command => command.refusal?
  | .error error => some error

/-- The line of the first item that is rejected, and why. -/
def firstRejection? (items : List Item) : Option (Nat × Error) :=
  items.findSome? fun item => item.rejection?.map fun error => (item.line, error)

/-- The commands before the first item that is rejected. -/
def acceptedCommands (items : List Item) : List Command :=
  (items.takeWhile fun item => item.rejection?.isNone).filterMap (·.outcome.toOption)

theorem Item.exists_command {item : Item} (accepted : item.rejection? = none) :
    ∃ command, item.outcome = .ok command ∧ command.refusal? = none := by
  unfold Item.rejection? at accepted
  split at accepted
  · exact ⟨_, ‹_›, accepted⟩
  · cases accepted

theorem firstRejection?_cons_some {item : Item} {error : Error}
    (rejected : item.rejection? = some error) (rest : List Item) :
    firstRejection? (item :: rest) = some (item.line, error) := by
  simp [firstRejection?, rejected]

theorem firstRejection?_cons_none {item : Item} (accepted : item.rejection? = none)
    (rest : List Item) : firstRejection? (item :: rest) = firstRejection? rest := by
  simp [firstRejection?, accepted]

theorem acceptedCommands_cons_some {item : Item} {error : Error}
    (rejected : item.rejection? = some error) (rest : List Item) :
    acceptedCommands (item :: rest) = [] := by
  simp [acceptedCommands, rejected]

theorem acceptedCommands_cons_none {item : Item} (accepted : item.rejection? = none)
    {command : Command} (read : item.outcome = .ok command) (rest : List Item) :
    acceptedCommands (item :: rest) = command :: acceptedCommands rest := by
  simp [acceptedCommands, accepted, read, Except.toOption]

/-- A line of the source is rejected: it holds code that is no command, or a refused one. -/
def Rejects (source : String) (line : Nat) (error : Error) : Prop :=
  0 < line ∧ ∃ text, (Text.lines source.toList)[line - 1]? = some text ∧ Text.code text ≠ [] ∧
    match readLine line (Text.code text) with
    | .ok command => command.refusal? = some error
    | .error cause => cause = error

structure FirstRejects (source : String) (line : Nat) (error : Error) : Prop where
  rejects : Rejects source line error
  first : ∀ earlier < line, ∀ other, ¬ Rejects source earlier other

/-- The commands on the lines before a line. -/
def commandsBefore (source : String) (line : Nat) : List Command :=
  ((items source).filter fun item => item.line < line).filterMap (·.outcome.toOption)

theorem mem_items {source : String} {item : Item} :
    item ∈ items source ↔ 0 < item.line ∧ ∃ text,
      (Text.lines source.toList)[item.line - 1]? = some text ∧ Text.code text ≠ [] ∧
        item.outcome = readLine item.line (Text.code text) := by
  obtain ⟨line, outcome⟩ := item
  simp only [items, Text.codeLines, List.mem_map, List.mem_filter, Prod.exists,
    List.mk_mem_zipIdx_iff_le_and_getElem?_sub, List.getElem?_map, Option.map_eq_some_iff]
  constructor
  · rintro ⟨code, number, ⟨⟨positive, text, found, rfl⟩, nonempty⟩, same⟩
    cases same
    exact ⟨positive, text, found, by simpa using nonempty, rfl⟩
  · rintro ⟨positive, text, found, nonempty, rfl⟩
    exact ⟨_, line, ⟨⟨positive, text, found, rfl⟩, by simpa using nonempty⟩, rfl⟩

theorem rejects_iff {source : String} {line : Nat} {error : Error} :
    Rejects source line error ↔
      ∃ item ∈ items source, item.line = line ∧ item.rejection? = some error := by
  constructor
  · rintro ⟨positive, text, found, nonempty, rejected⟩
    refine ⟨⟨line, readLine line (Text.code text)⟩,
      mem_items.mpr ⟨positive, text, found, nonempty, rfl⟩, rfl, ?_⟩
    unfold Item.rejection?
    split at rejected
    · rename_i command read
      simp only [read, rejected]
    · rename_i cause read
      simp only [read, rejected]
  · rintro ⟨item, member, rfl, rejected⟩
    obtain ⟨positive, text, found, nonempty, read⟩ := mem_items.mp member
    refine ⟨positive, text, found, nonempty, ?_⟩
    unfold Item.rejection? at rejected
    rw [read] at rejected
    split
    · rename_i command same
      simpa only [same] using rejected
    · rename_i cause same
      simpa only [same, Option.some.injEq] using rejected

theorem pairwise_items (source : String) :
    (items source).Pairwise fun first second => first.line < second.line := by
  rw [items, List.pairwise_map]
  refine List.Pairwise.filter _ ?_
  rw [← List.pairwise_map (f := Prod.snd) (R := fun first second : Nat => first < second),
    List.zipIdx_map_snd]
  exact List.pairwise_lt_range'

/-- The items before the line of the first rejection are those before the first rejected item. -/
theorem filter_of_firstRejection? {items : List Item} {line : Nat} {error : Error}
    (ordered : items.Pairwise fun first second => first.line < second.line)
    (found : firstRejection? items = some (line, error)) :
    (items.filter fun item => item.line < line) =
      items.takeWhile fun item => item.rejection?.isNone := by
  induction items with
  | nil => cases found
  | cons item rest ih =>
    obtain ⟨before, ordered⟩ := List.pairwise_cons.mp ordered
    cases judgement : item.rejection? with
    | some cause =>
      rw [firstRejection?_cons_some judgement] at found
      cases found
      have none : (rest.filter fun other => other.line < item.line) = [] := by
        refine List.filter_eq_nil_iff.mpr fun other member => ?_
        have later := before other member
        simp only [decide_eq_true_eq]
        omega
      simp [none, judgement]
    | none =>
      rw [firstRejection?_cons_none judgement] at found
      obtain ⟨other, member, rejected⟩ := List.exists_of_findSome?_eq_some found
      obtain ⟨cause, -, same⟩ := Option.map_eq_some_iff.mp rejected
      cases same
      simp [judgement, before other member, ih ordered found]

/-- The first line that is rejected is that of the first item that is rejected. -/
theorem firstRejects_iff {source : String} {line : Nat} {error : Error} :
    FirstRejects source line error ↔ firstRejection? (items source) = some (line, error) := by
  have ordered := pairwise_items source
  constructor
  · intro rejected
    obtain ⟨item, member, rfl, cause⟩ := rejects_iff.mp rejected.rejects
    cases found : firstRejection? (items source) with
    | none =>
      have accepted := List.findSome?_eq_none_iff.mp found item member
      simp [cause] at accepted
    | some entry =>
      obtain ⟨before, first, behind, split, same, accepted⟩ := List.findSome?_eq_some_iff.mp found
      obtain ⟨other, judgement, rfl⟩ := Option.map_eq_some_iff.mp same
      rw [split] at member ordered
      have later := (List.pairwise_cons.mp (List.pairwise_append.mp ordered).2.1).1
      rcases List.mem_append.mp member with early | rest
      · have impossible := accepted item early
        simp [cause] at impossible
      · rcases List.mem_cons.mp rest with rfl | late
        · rw [cause] at judgement
          cases judgement
          rfl
        · have member : first ∈ items source := by simp [split]
          exact absurd (rejects_iff.mpr ⟨first, member, rfl, judgement⟩)
            (rejected.first first.line (later item late) other)
  · intro found
    obtain ⟨before, first, behind, split, same, accepted⟩ := List.findSome?_eq_some_iff.mp found
    obtain ⟨_, judgement, same⟩ := Option.map_eq_some_iff.mp same
    cases same
    refine ⟨rejects_iff.mpr ⟨first, by simp [split], rfl, judgement⟩, ?_⟩
    intro earlier less other rejected
    obtain ⟨item, member, rfl, cause⟩ := rejects_iff.mp rejected
    rw [split] at member ordered
    have later := (List.pairwise_cons.mp (List.pairwise_append.mp ordered).2.1).1
    rcases List.mem_append.mp member with early | rest
    · have impossible := accepted item early
      simp [cause] at impossible
    · rcases List.mem_cons.mp rest with rfl | late
      · omega
      · have after := later item late
        omega

theorem firstRejection?_eq_none {source : String}
    (clean : ∀ line error, ¬ Rejects source line error) :
    firstRejection? (items source) = none := by
  refine List.findSome?_eq_none_iff.mpr fun item member => ?_
  cases judgement : item.rejection? with
  | none => rfl
  | some error => exact absurd (rejects_iff.mpr ⟨item, member, rfl, judgement⟩) (clean _ _)

theorem acceptedCommands_of_firstRejects {source : String} {line : Nat} {error : Error}
    (rejected : FirstRejects source line error) :
    acceptedCommands (items source) = commandsBefore source line := by
  rw [acceptedCommands, commandsBefore,
    filter_of_firstRejection? (pairwise_items source) (firstRejects_iff.mp rejected)]

end Source

/-- The failure of a module that is rejected at a line. -/
def rejectedAt (name : String) (rejection : Nat × Error) : Failure :=
  { contexts := [.atLine name rejection.1], cause := .compiling rejection.2 }

namespace Course

variable (name : String)

theorem item_of_rejected {entry : Source.Item} {error : Error}
    (rejected : entry.rejection? = some error) (generator : Generator) :
    item name entry generator =
      .still generator (.error (rejectedAt name (entry.line, error))) := by
  unfold Source.Item.rejection? at rejected
  unfold item
  cases read : entry.outcome with
  | ok command =>
    simp only [read] at rejected
    simp only [compile, generator.code_of_refusal rejected]
    rfl
  | error cause =>
    simp only [read] at rejected
    cases rejected
    rfl

theorem item_of_accepted {entry : Source.Item} {command : Command}
    (read : entry.outcome = .ok command) (accepted : command.refusal? = none)
    (generator : Generator) :
    item name entry generator =
      { emissions := [.compiled generator command], generator := generator.advance command,
        result := .ok () } := by
  obtain ⟨code, generated⟩ := generator.exists_code accepted
  unfold item
  simp only [read, compile, generated]

/-- The course of items in closed form: the blocks of the accepted commands, the state after them,
and the first rejection. -/
theorem each_item (items : List Source.Item) (generator : Generator) :
    let course := each (item name) items generator
    outputOf course.emissions =
        Compilation.textOf (generator.sites (Source.acceptedCommands items)) ∧
      course.generator = generator.after (Source.acceptedCommands items) ∧
      course.result = judged ((Source.firstRejection? items).map (rejectedAt name)) := by
  intro course
  induction items generalizing generator with
  | nil => exact ⟨rfl, rfl, rfl⟩
  | cons entry rest ih =>
    have step : course = (item name entry generator).andThen fun _ => each (item name) rest := rfl
    cases judgement : entry.rejection? with
    | some error =>
      rw [item_of_rejected name judgement] at step
      rw [step, Source.acceptedCommands_cons_some judgement,
        Source.firstRejection?_cons_some judgement]
      exact ⟨rfl, rfl, rfl⟩
    | none =>
      obtain ⟨command, read, accepted⟩ := Source.Item.exists_command judgement
      obtain ⟨written, reached, ended⟩ := ih (generator.advance command)
      rw [item_of_accepted name read accepted] at step
      rw [step, Source.acceptedCommands_cons_none judgement read,
        Source.firstRejection?_cons_none judgement]
      refine ⟨?_, reached, ended⟩
      change outputOf ([.compiled generator command] ++ _) = _
      rw [outputOf_append, written]
      simp only [outputOf, Compilation.textOf, Generator.sites, List.map_cons, List.map_nil,
        String.join_cons, String.join_nil, String.append_empty]
      rfl

theorem module_of_symbol {name : String} (symbol : isSymbol name = true) (source : String)
    (generator : Generator) :
    module name source generator =
      each (item name) (Source.items source) (generator.enter name) := by
  have entered : generator.enterModule name = .ok (generator.enter name) := if_pos symbol
  simp only [module, enter, entered, andThen, still, List.nil_append]

end Course

/-- Over a sink that never fails, a module of a proper name is compiled up to its first
rejection. -/
theorem Unfailing.compileModule {σ : Type} [Sink σ] {content : σ → ByteArray} {usable : σ → Prop}
    (unfailing : Unfailing content usable) {name : String} (symbol : isSymbol name = true)
    (source : String) {before : Compilation σ} (ready : usable before.sink) :
    let run := Compilation.compileModule name source before
    let written := Source.acceptedCommands (Source.items source)
    resultOf run = judged ((Source.firstRejection? (Source.items source)).map (rejectedAt name)) ∧
      (stateOf run).generator = (before.generator.enter name).after written ∧
      content (stateOf run).sink = content before.sink ++
        (Compilation.textOf ((before.generator.enter name).sites written)).toUTF8 := by
  intro run written
  obtain ⟨result, generator, -, stored⟩ :=
    unfailing.action (.compileModule name source) ready
  have course := Course.each_item name (Source.items source) (before.generator.enter name)
  rw [← Course.module_of_symbol symbol] at course
  obtain ⟨text, reached, ended⟩ := course
  simp only [Action.course] at stored
  rw [text] at stored
  exact ⟨result.trans ended, generator.trans reached, stored⟩

namespace Compilation

variable {σ : Type}

/-- Two actions end alike: in the same state, and both of them succeed or both fail. -/
def EndAlike (first : EStateM.Result ε (Compilation σ) Unit)
    (second : EStateM.Result δ (Compilation σ) Unit) : Prop :=
  stateOf first = stateOf second ∧ (resultOf first = .ok () ↔ resultOf second = .ok ())

theorem endAlike_within (contexts : List Context) (action : CompileM σ Error Unit)
    (before : Compilation σ) : EndAlike (within contexts action before) (action before) := by
  refine ⟨stateOf_within contexts action before, ?_⟩
  simp only [within, EStateM.adaptExcept]
  cases action before <;> simp [resultOf]

theorem EndAlike.bind {first : CompileM σ ε Unit} {second : CompileM σ δ Unit}
    {next : Unit → CompileM σ ε Unit} {other : Unit → CompileM σ δ Unit}
    {before : Compilation σ} (heads : EndAlike (first before) (second before))
    (tails : ∀ middle, EndAlike (next () middle) (other () middle)) :
    EndAlike ((first >>= next) before) ((second >>= other) before) := by
  obtain ⟨state, success⟩ := heads
  rw [run_bind, run_bind]
  cases left : first before with
  | ok value middle =>
    rw [left] at state success
    cases right : second before with
    | ok value after =>
      rw [right] at state
      cases state
      exact tails middle
    | error error after =>
      rw [right] at success
      exact absurd (success.mp rfl) (by simp [resultOf])
  | error error middle =>
    rw [left] at state success
    cases right : second before with
    | ok value after =>
      rw [right] at success
      exact absurd (success.mpr rfl) (by simp [resultOf])
    | error other after =>
      rw [right] at state
      exact ⟨state, by simp [resultOf]⟩

variable [Sink σ]

/-- Compiling items as they are read ends as compiling their commands does. -/
theorem endAlike_items (name : String) {items : List Source.Item} {commands : List Command}
    (read : List.Forall₂ (fun item command => item.outcome = .ok command) items commands)
    (before : Compilation σ) :
    EndAlike (items.forM (compileItem name) before) (compileAll commands before) := by
  induction read generalizing before with
  | nil => exact ⟨rfl, fun _ => rfl, fun _ => rfl⟩
  | @cons item command items commands outcome _ ih =>
    simp only [compileAll, List.forM_eq_forM, List.forM_cons] at ih ⊢
    refine EndAlike.bind ?_ ih
    have same : compileItem name item before =
        within [.atLine name item.line] (compile command) before := by
      unfold compileItem
      rw [outcome]
      exact within_congr _ (run_bind _ _ _)
    rw [same]
    exact endAlike_within _ _ _

end Compilation

theorem Command.refusal?_ne_sink (command : Command) (cause : StorageError) :
    command.refusal? ≠ some (.sink cause) := by
  have index : ∀ segment index max, excess? segment index max ≠ some (.sink cause) := by
    intro segment index max
    unfold excess?
    split_ifs <;> simp
  cases command with
  | arithmetic mnemonic =>
    simp only [Command.refusal?]
    split_ifs <;> simp
  | push segment number =>
    cases segment with
    | static => simp [Command.refusal?, Segment.refusal?]
    | _ => exact index _ _ _
  | pop segment number =>
    cases segment with
    | constant | static => simp [Command.refusal?, Segment.refusal?]
    | _ => exact index _ _ _
  | call name arguments => exact index _ _ _
  | label | goto | ifGoto | function | ret => simp [Command.refusal?]

theorem chain_rejectedAt {source name : String} {line : Nat} {error : Error}
    (rejected : Source.Rejects source line error) :
    (rejectedAt name (line, error)).chain = [name ++ ".vm:" ++ line.repr, error.message] := by
  have blameless : ∀ cause, error ≠ .sink cause := by
    rintro cause rfl
    obtain ⟨-, text, -, -, rejected⟩ := rejected
    split at rejected
    · exact Command.refusal?_ne_sink _ _ rejected
    · rename_i other read
      subst rejected
      rcases Source.readLine_failsOnly _ _ _ read with ⟨reason, same⟩ | ⟨name, same⟩
      · cases same
      · cases same
  cases error with
  | sink cause => exact absurd rfl (blameless cause)
  | _ => rfl

open Compilation

/-- Compiling a module as it is read agrees with reading it first, and a failure points at the right
line. If the source is read as commands, then the module ends as entering it and compiling the
commands does: in the same state, with the same bytes, and with success exactly if they succeed. If
no line is rejected, then the module is compiled. Otherwise it fails with the first line that is
rejected and the error of that line, and exactly the blocks of the commands on the lines before it
have been written, in order. -/
theorem module_compiles_up_to_rejection {σ : Type} [Sink σ] {content : σ → ByteArray}
    {usable : σ → Prop} (unfailing : Unfailing content usable) {name : String}
    (symbol : isSymbol name = true) (source : String) {before : Compilation σ}
    (ready : usable before.sink) :
    let run := compileModule name source before
    (∀ commands, Source.commands source = .ok commands →
        let staged := (do enterModule name; compileAll commands : CompileM σ Error Unit) before
        stateOf run = stateOf staged ∧ (resultOf run = .ok () ↔ resultOf staged = .ok ())) ∧
      ((∀ line error, ¬ Source.Rejects source line error) → resultOf run = .ok ()) ∧
      ∀ line error, Source.FirstRejects source line error →
        ∃ failure, resultOf run = .error failure ∧
          failure.chain = [name ++ ".vm:" ++ line.repr, error.message] ∧
          content (stateOf run).sink = content before.sink ++
            (textOf ((before.generator.enter name).sites
              (Source.commandsBefore source line))).toUTF8 := by
  intro run
  obtain ⟨result, -, stored⟩ := unfailing.compileModule symbol source ready
  refine ⟨?_, ?_, ?_⟩
  · intro commands read
    exact EndAlike.bind (endAlike_within _ _ _) fun middle =>
      endAlike_items name (forall₂_of_mapM read) middle
  · intro clean
    exact result.trans (by rw [Source.firstRejection?_eq_none clean]; rfl)
  · intro line error rejected
    refine ⟨rejectedAt name (line, error), ?_, chain_rejectedAt rejected.rejects, ?_⟩
    · exact result.trans (by rw [Source.firstRejects_iff.mp rejected]; rfl)
    · rw [← Source.acceptedCommands_of_firstRejects rejected]
      exact stored

/-- A source with lines that hold no code, a command that the generator refuses and a line that the
reader refuses. -/
def brokenSource : String :=
  "// start\npush constant 1\n\neq\n  pop constant 0 // no cell\npush constant\n"

theorem module_compiles_up_to_rejection_broken :
    isSymbol "M" = true ∧ Source.FirstRejects brokenSource 5 (.invalidSegment "constant") ∧
      ∃ failure,
        resultOf (compileModule "M" brokenSource { sink := ({} : MemorySink) }) = .error failure ∧
        failure.chain = ["M.vm:5", "invalid segment `constant`"] ∧
        (stateOf (compileModule "M" brokenSource { sink := ({} : MemorySink) })).sink.content =
          .empty ++ (textOf ((({} : Generator).enter "M").sites
            [.push .constant 1, .arithmetic "eq"])).toUTF8 := by
  have symbol : isSymbol "M" = true := by decide
  have first : Source.FirstRejects brokenSource 5 (.invalidSegment "constant") :=
    Source.firstRejects_iff.mpr (by decide +kernel)
  have written : Source.commandsBefore brokenSource 5 = [.push .constant 1, .arithmetic "eq"] := by
    decide +kernel
  have texts : ["M" ++ ".vm:" ++ (5 : Nat).repr, (Error.invalidSegment "constant").message] =
      ["M.vm:5", "invalid segment `constant`"] := by decide
  obtain ⟨-, -, fails⟩ := @module_compiles_up_to_rejection _ _ _ _ unfailing_unlimited _ symbol
    brokenSource { sink := ({} : MemorySink) } ⟨rfl, rfl⟩
  obtain ⟨failure, failed, chain, stored⟩ := fails 5 _ first
  rw [written] at stored
  exact ⟨symbol, first, failure, failed, chain.trans texts, stored⟩

end HackStack
