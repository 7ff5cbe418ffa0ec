import HackStack.Proofs.Compiler.FirstRejection
import HackStack.Proofs.Compiler.Legality

/-! The code of a module does not depend on what was compiled before it. Two runs over one module,
from any two states, write the same lines, except that the lines in which the generator writes a
symbol of its own carry numbers that go on from those of each state. -/
namespace HackStack
open Assembly

/-- What a symbol is for that the generator makes up inside a module. -/
inductive OwnSymbol
  | yes | done | behind
  deriving DecidableEq, Repr, Inhabited

namespace OwnSymbol

/-- The number that the next symbol of this use gets in a state. -/
def next (generator : Generator) : OwnSymbol → Nat
  | .yes | .done => generator.comparisons
  | .behind => generator.calls

def text (module : String) (number : Nat) : OwnSymbol → String
  | .yes => "TRUE_" ++ number.repr
  | .done => "END_" ++ number.repr
  | .behind => module ++ "$ret." ++ number.repr

end OwnSymbol

/-- A line of output. Where the generator loads or declares a symbol of its own, the line is known
by the use and the number of the symbol; a name from the source that looks like one is plain
text. -/
inductive Line
  | plain (text : String)
  | load (symbol : OwnSymbol) (number : Nat)
  | declare (symbol : OwnSymbol) (number : Nat)
  deriving DecidableEq, Repr, Inhabited

namespace Line

def text (module : String) : Line → String
  | .plain text => text
  | .load symbol number => "@" ++ symbol.text module number
  | .declare symbol number => "(" ++ symbol.text module number ++ ")"

def plainLines (statements : List Statement) : List Line :=
  statements.map fun statement => .plain statement.text

/-- The same line in two runs: the same text, or a symbol of the same use whose number is as far
from the next one of its run. -/
inductive Moves (first second : Generator) : Line → Line → Prop
  | plain (text : String) : Moves first second (.plain text) (.plain text)
  | load (symbol : OwnSymbol) (offset : Nat) : Moves first second
      (.load symbol (symbol.next first + offset)) (.load symbol (symbol.next second + offset))
  | declare (symbol : OwnSymbol) (offset : Nat) : Moves first second
      (.declare symbol (symbol.next first + offset)) (.declare symbol (symbol.next second + offset))

variable {first second : Generator}

theorem moves_plainLines (statements : List Statement) :
    List.Forall₂ (Moves first second) (plainLines statements) (plainLines statements) := by
  simp only [plainLines, List.forall₂_map_left_iff, List.forall₂_map_right_iff]
  exact List.forall₂_same.mpr fun statement _ => .plain statement.text

end Line

namespace Code
open Line

def compareLines (count : Nat) (jump : Jump) : List Line :=
  plainLines (popData ++ [.store .onlyA (.decrement .a), .store .onlyD (.subtractFrom .m)]) ++
    [.load .yes count] ++
    plainLines [.jump (.copy .d) jump, .symbol "SP", .store .onlyA (.decrement .m),
      .store .onlyM .zero] ++
    [.load .done count] ++ plainLines [.jump .zero .always] ++ [.declare .yes count] ++
    plainLines [.symbol "SP", .store .onlyA (.decrement .m), .store .onlyM .minusOne] ++
    [.declare .done count]

def callInside (name : String) (arguments : Nat) : List Statement :=
  ((call "" name arguments).drop 1).dropLast

def callLines (count : Nat) (name : String) (arguments : Nat) : List Line :=
  .load .behind count ::
    plainLines (callInside name arguments) ++ [.declare .behind count]

theorem text_compareLines (module : String) (count : Nat) (jump : Jump) :
    (compareLines count jump).map (Line.text module) =
      (compare count jump).map Statement.text := rfl

theorem text_callLines (generator : Generator) (name : String) (arguments : Nat) :
    (callLines generator.calls name arguments).map (Line.text generator.module) =
      (call generator.returnSymbol name arguments).map Statement.text := rfl

variable {first second : Generator}

theorem moves_compareLines (offset : Nat) (jump : Jump) :
    List.Forall₂ (Moves first second) (compareLines (first.comparisons + offset) jump)
      (compareLines (second.comparisons + offset) jump) := by
  have plain := @moves_plainLines first second
  refine List.rel_append (List.rel_append (List.rel_append (List.rel_append (List.rel_append
    (List.rel_append (List.rel_append (plain _) ?_) (plain _)) ?_) (plain _)) ?_) (plain _)) ?_
  · exact .cons (.load .yes offset) .nil
  · exact .cons (.load .done offset) .nil
  · exact .cons (.declare .yes offset) .nil
  · exact .cons (.declare .done offset) .nil

theorem moves_callLines (offset : Nat) (name : String) (arguments : Nat) :
    List.Forall₂ (Moves first second) (callLines (first.calls + offset) name arguments)
      (callLines (second.calls + offset) name arguments) := by
  refine List.rel_append (.cons (.load .behind offset) (moves_plainLines _)) ?_
  exact .cons (.declare .behind offset) .nil

end Code

namespace Generator

/-- The lines of a command's code. Only comparisons and calls have symbols of their own. -/
def codeLines (generator : Generator) (command : Command) : List Line :=
  let plain := Line.plainLines (Site.compiled generator command).code
  match command with
  | .arithmetic mnemonic =>
    match Operation.ofMnemonic? mnemonic with
    | some .eq => Code.compareLines generator.comparisons .zero
    | some .gt => Code.compareLines generator.comparisons .positive
    | some .lt => Code.compareLines generator.comparisons .negative
    | _ => plain
  | .call name arguments => Code.callLines generator.calls name arguments.toNat
  | _ => plain

/-- The lines of commands that follow one another, each under its heading. -/
def linesOf (generator : Generator) : List Command → List Line
  | [] => []
  | command :: rest =>
    .plain ("// " ++ command.text) :: generator.codeLines command ++
      (generator.advance command).linesOf rest

/-- Two states stand to each other as two earlier ones did, as far as code depends on them. -/
structure Parallel (first second left right : Generator) : Prop where
  module : left.module = right.module
  scope : left.scope = right.scope
  comparisons : ∃ offset, left.comparisons = first.comparisons + offset ∧
    right.comparisons = second.comparisons + offset
  calls : ∃ offset, left.calls = first.calls + offset ∧ right.calls = second.calls + offset

namespace Parallel

variable {first second left right : Generator}

theorem enter (name : String) : Parallel first second (first.enter name) (second.enter name) :=
  ⟨rfl, rfl, ⟨0, rfl, rfl⟩, ⟨0, rfl, rfl⟩⟩

theorem advance (parallel : Parallel first second left right) (command : Command) :
    Parallel first second (left.advance command) (right.advance command) := by
  obtain ⟨module, scope, ⟨branches, here, there⟩, ⟨behind, calls, others⟩⟩ := parallel
  cases command with
  | function name locals => exact ⟨module, rfl, ⟨branches, here, there⟩, ⟨behind, calls, others⟩⟩
  | call name arguments =>
    refine ⟨module, scope, ⟨branches, here, there⟩, ⟨behind + 1, ?_, ?_⟩⟩
    · simp only [Generator.advance, calls, Nat.add_assoc]
    · simp only [Generator.advance, others, Nat.add_assoc]
  | arithmetic mnemonic =>
    simp only [Generator.advance]
    split
    case h_4 => exact ⟨module, scope, ⟨branches, here, there⟩, ⟨behind, calls, others⟩⟩
    all_goals
      refine ⟨module, scope, ⟨branches + 1, ?_, ?_⟩, ⟨behind, calls, others⟩⟩
      · simp only [here, Nat.add_assoc]
      · simp only [there, Nat.add_assoc]
  | push | pop | label | goto | ifGoto | ret =>
    exact ⟨module, scope, ⟨branches, here, there⟩, ⟨behind, calls, others⟩⟩

theorem place (parallel : Parallel first second left right) (segment : Segment) (index : Word) :
    left.place segment index = right.place segment index := by
  cases segment with
  | static => simp only [Generator.place, Generator.staticSymbol, parallel.module]
  | _ => rfl

theorem moves_codeLines (parallel : Parallel first second left right) (command : Command) :
    List.Forall₂ (Line.Moves first second) (left.codeLines command) (right.codeLines command) := by
  cases command with
  | arithmetic mnemonic =>
    obtain ⟨offset, here, there⟩ := parallel.comparisons
    simp only [codeLines, Site.code, code]
    cases Operation.ofMnemonic? mnemonic with
    | none => exact Line.moves_plainLines _
    | some operation =>
      cases operation with
      | eq | gt | lt =>
        rw [here, there]
        exact Code.moves_compareLines offset _
      | _ => exact Line.moves_plainLines _
  | call name arguments =>
    obtain ⟨offset, here, there⟩ := parallel.calls
    simp only [codeLines, here, there]
    exact Code.moves_callLines offset name _
  | push segment index =>
    have same : left.code (.push segment index) = right.code (.push segment index) := by
      simp only [code, push, parallel.place]
    simp only [codeLines, Site.code, same]
    exact Line.moves_plainLines _
  | pop segment index =>
    have same : left.code (.pop segment index) = right.code (.pop segment index) := by
      simp only [code, pop, parallel.place]
    simp only [codeLines, Site.code, same]
    exact Line.moves_plainLines _
  | label name | goto name | ifGoto name =>
    simp only [codeLines, Site.code, code, parallel.scope]
    exact Line.moves_plainLines _
  | function | ret => exact Line.moves_plainLines _

/-- Commands that follow one another are written alike and lead to parallel states. -/
theorem moves_linesOf (parallel : Parallel first second left right) (commands : List Command) :
    List.Forall₂ (Line.Moves first second) (left.linesOf commands) (right.linesOf commands) ∧
      Parallel first second (left.after commands) (right.after commands) := by
  induction commands generalizing left right with
  | nil => exact ⟨.nil, parallel⟩
  | cons command rest ih =>
    obtain ⟨lines, reached⟩ := ih (parallel.advance command)
    exact ⟨.cons (.plain _) (List.rel_append (parallel.moves_codeLines command) lines), reached⟩

end Parallel

theorem text_codeLines (generator : Generator) {command : Command}
    (accepted : command.refusal? = none) :
    (generator.codeLines command).map (Line.text generator.module) =
      (Site.compiled generator command).code.map Statement.text := by
  have plain : ∀ statements : List Statement,
      (Line.plainLines statements).map (Line.text generator.module) =
        statements.map Statement.text := by
    intro statements
    simp only [Line.plainLines, List.map_map]
    rfl
  obtain ⟨code, generated⟩ := generator.exists_code accepted
  cases command with
  | arithmetic mnemonic =>
    simp only [Generator.code] at generated
    simp only [codeLines, Site.code, Generator.code]
    cases found : Operation.ofMnemonic? mnemonic with
    | none => simp [found] at generated
    | some operation =>
      cases operation with
      | eq | gt | lt => exact Code.text_compareLines _ _ _
      | _ => exact plain _
  | call name arguments =>
    obtain ⟨count, checked, result⟩ := bind_ok generated
    cases result
    rw [(checked_ok checked).1] at generated
    simp only [codeLines, Site.code, generated]
    exact Code.text_callLines _ _ _
  | _ => exact plain _

theorem text_linesOf (generator : Generator) {commands : List Command}
    (accepted : ∀ command ∈ commands, command.refusal? = none) :
    (generator.linesOf commands).map (Line.text generator.module) =
      ((generator.sites commands).map Site.block).flatMap Block.lines := by
  induction commands generalizing generator with
  | nil => rfl
  | cons command rest ih =>
    have tail := ih (generator.advance command)
      fun other member => accepted other (List.mem_cons_of_mem _ member)
    rw [generator.advance_module command] at tail
    simp only [linesOf, sites, List.map_append, List.map_cons, List.flatMap_cons]
    rw [tail, generator.text_codeLines (accepted command List.mem_cons_self)]
    rfl

theorem sites_accepted (generator : Generator) {commands : List Command}
    (accepted : ∀ command ∈ commands, command.refusal? = none) :
    ∀ site ∈ generator.sites commands, site.Accepted := by
  induction commands generalizing generator with
  | nil => exact fun _ member => absurd member List.not_mem_nil
  | cons command rest ih =>
    intro site member
    rcases List.mem_cons.mp member with rfl | member
    · exact generator.exists_code (accepted command List.mem_cons_self)
    · exact ih _ (fun other inside => accepted other (List.mem_cons_of_mem _ inside)) site member

end Generator

theorem Site.legal_block {site : Site} (named : site.Named) (accepted : site.Accepted) :
    site.block.Legal := by
  have code := named.tidy.legal
  cases site with
  | setStack => exact ⟨by decide, code⟩
  | loop label => exact ⟨by simp only [Site.block]; decide, code⟩
  | compiled generator command => exact ⟨newline_text named.2 accepted, code⟩

theorem join_blocks (blocks : List Block) :
    String.join (blocks.map Block.text) =
      String.join ((blocks.flatMap Block.lines).map (· ++ "\n")) := by
  induction blocks with
  | nil => rfl
  | cons block rest ih =>
    rw [List.map_cons, String.join_cons, ih, List.flatMap_cons, List.map_append,
      String.join_append, Block.text]

theorem Source.mem_acceptedCommands {items : List Source.Item} {command : Command}
    (member : command ∈ Source.acceptedCommands items) :
    command.refusal? = none ∧ ∃ item ∈ items, item.outcome = .ok command := by
  obtain ⟨item, taken, read⟩ := List.mem_filterMap.mp member
  have kept := List.mem_takeWhile_imp taken
  obtain ⟨other, outcome, accepted⟩ :=
    Source.Item.exists_command (Option.isNone_iff_eq_none.mp kept)
  rw [outcome] at read
  cases read
  exact ⟨accepted, item, (List.takeWhile_subset _) taken, outcome⟩

def moduleLines (name source : String) (generator : Generator) : List Line :=
  (generator.enter name).linesOf (Source.acceptedCommands (Source.items source))

def linesText (name : String) (lines : List Line) : String :=
  String.join (lines.map fun line => line.text name ++ "\n")

/-- The lines of a module make up what is written of it, and none of them holds a newline. -/
theorem moduleLines_text {name : String} (symbol : isSymbol name = true) (source : String)
    (generator : Generator) :
    Compilation.textOf ((generator.enter name).sites
        (Source.acceptedCommands (Source.items source))) =
      linesText name (moduleLines name source generator) ∧
      ∀ line ∈ moduleLines name source generator, '\n' ∉ (line.text name).toList := by
  have accepted : ∀ command ∈ Source.acceptedCommands (Source.items source),
      command.refusal? = none := fun command member => (Source.mem_acceptedCommands member).1
  have symbols : ∀ command ∈ Source.acceptedCommands (Source.items source), command.Named := by
    intro command member
    obtain ⟨-, item, inside, outcome⟩ := Source.mem_acceptedCommands member
    exact Source.items_named source item inside command outcome
  have named : (generator.enter name).Named := ⟨symbol, symbol⟩
  have lines : (moduleLines name source generator).map (Line.text name) = _ :=
    (generator.enter name).text_linesOf accepted
  constructor
  · have texts : linesText name (moduleLines name source generator) =
        String.join
          (((moduleLines name source generator).map (Line.text name)).map (· ++ "\n")) := by
      rw [linesText, List.map_map]
      rfl
    rw [texts, lines, ← join_blocks, List.map_map]
    rfl
  · intro line member
    have written := List.mem_map_of_mem (f := Line.text name) member
    rw [lines] at written
    obtain ⟨block, among, inside⟩ := List.mem_flatMap.mp written
    obtain ⟨site, present, rfl⟩ := List.mem_map.mp among
    have legal := Site.legal_block (Generator.sites_named named symbols site present)
      ((generator.enter name).sites_accepted accepted site present)
    exact Block.newline_lines legal.readable _ inside

open Compilation

/-- The code of a module does not depend on what was compiled before it. From any two states, over
sinks that never fail, a module of a proper name has the same result, moves both counters by the
same amounts, and writes the same number of lines. These are equal one by one, except that where the
generator writes a symbol of its own its number is moved by the difference of the counters. -/
theorem module_code_renumbered {σ τ : Type} [Sink σ] [Sink τ] {content : σ → ByteArray}
    {usable : σ → Prop} {otherContent : τ → ByteArray} {otherUsable : τ → Prop}
    (unfailing : Unfailing content usable) (otherUnfailing : Unfailing otherContent otherUsable)
    {name : String} (symbol : isSymbol name = true) (source : String)
    {first : Compilation σ} {second : Compilation τ}
    (ready : usable first.sink) (otherReady : otherUsable second.sink) :
    let run := compileModule name source first
    let other := compileModule name source second
    resultOf run = resultOf other ∧
      (∃ comparisons calls,
        (stateOf run).generator.comparisons = first.generator.comparisons + comparisons ∧
        (stateOf other).generator.comparisons = second.generator.comparisons + comparisons ∧
        (stateOf run).generator.calls = first.generator.calls + calls ∧
        (stateOf other).generator.calls = second.generator.calls + calls) ∧
      content (stateOf run).sink =
        content first.sink ++ (linesText name (moduleLines name source first.generator)).toUTF8 ∧
      otherContent (stateOf other).sink = otherContent second.sink ++
        (linesText name (moduleLines name source second.generator)).toUTF8 ∧
      (∀ generator, ∀ line ∈ moduleLines name source generator,
        '\n' ∉ (line.text name).toList) ∧
      List.Forall₂ (Line.Moves first.generator second.generator)
        (moduleLines name source first.generator)
        (moduleLines name source second.generator) := by
  intro run other
  obtain ⟨result, reached, stored⟩ := unfailing.compileModule symbol source ready
  obtain ⟨otherResult, otherReached, otherStored⟩ :=
    otherUnfailing.compileModule symbol source otherReady
  obtain ⟨moves, parallel⟩ := (Generator.Parallel.enter name).moves_linesOf
    (Source.acceptedCommands (Source.items source))
  rw [(moduleLines_text symbol source _).1] at stored otherStored
  refine ⟨result.trans otherResult.symm, ?_, stored, otherStored, ?_, moves⟩
  · obtain ⟨comparisons, here, there⟩ := parallel.comparisons
    obtain ⟨calls, behind, beyond⟩ := parallel.calls
    rw [← reached] at here behind
    rw [← otherReached] at there beyond
    exact ⟨comparisons, calls, here, there, behind, beyond⟩
  · exact fun generator => (moduleLines_text symbol source generator).2

/-- A comparison and a call, and a function that is named like the first comparison's label. -/
def lookalikeSource : String := "eq\ncall TRUE_0 0\nfunction TRUE_0 0\n"

def busyState : Compilation MemorySink :=
  { generator := ⟨"Other", .function "Other.f", 3, 5, true⟩, sink := {} }

theorem module_code_renumbered_lookalike :
    isSymbol "M" = true ∧
      resultOf (compileModule "M" lookalikeSource { sink := ({} : MemorySink) }) =
        resultOf (compileModule "M" lookalikeSource busyState) ∧
      List.Forall₂ (Line.Moves {} busyState.generator) (moduleLines "M" lookalikeSource {})
        (moduleLines "M" lookalikeSource busyState.generator) ∧
      [.load .yes 0, .declare .behind 0, .plain "@TRUE_0", .plain "(TRUE_0)"] ⊆
        moduleLines "M" lookalikeSource {} ∧
      [.load .yes 3, .declare .behind 5, .plain "@TRUE_0", .plain "(TRUE_0)"] ⊆
        moduleLines "M" lookalikeSource busyState.generator := by
  have symbol : isSymbol "M" = true := by decide
  obtain ⟨result, -, -, -, -, moves⟩ :=
    @module_code_renumbered _ _ _ _ _ _ _ _ unfailing_unlimited unfailing_unlimited _ symbol
      lookalikeSource { sink := ({} : MemorySink) } busyState ⟨rfl, rfl⟩ ⟨rfl, rfl⟩
  exact ⟨symbol, result, moves, by decide +kernel, by decide +kernel⟩

end HackStack
