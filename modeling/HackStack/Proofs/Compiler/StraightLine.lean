import HackStack.Proofs.Compiler.StackCommands
import HackStack.Proofs.Compiler.Startup
import HackStack.Proofs.Machine.Climbing
import HackStack.Proofs.Text.Lines

/-! Programs without jumps. Their only branches are inside comparisons, and these aim at labels of
the generator, which stand further up and which no name in the program can meet. So every step goes
up until the end is reached, whatever the memory holds. -/
namespace HackStack
open Assembly Machine

namespace Code

variable {code : Array Instruction} {symbols : String → Word} {first : Nat}

theorem ascends_decision {yes done : String} {jump : Jump}
    (held : Holds code symbols first (decision yes done jump))
    (yesAddress : (symbols yes).toNat = first + 12)
    (doneAddress : (symbols done).toNat = first + 15) : Ascends code first (first + 15) := by
  have parts := held
  rw [decision, holds_append] at parts
  have below : Holds code symbols (first + 7) ([.symbol "SP", .store .onlyA (.decrement .m),
      .store .onlyM .zero] ++ .symbol done :: .jump .zero .always :: _) := parts.2.2
  have above : Holds code symbols (first + 12) _ := (holds_append.mp parts.2.2).2.2
  have written : Ascends code (first + 7) (first + 15) := by
    intro machine start
    obtain ⟨result, climbs, reached | ⟨stays, -⟩⟩ := climbs_branch below rfl
      (by rw [doneAddress]; exact Nat.add_lt_add_left (by decide : 11 < 15) first) start
    · exact ⟨result, climbs, reached.trans doneAddress⟩
    · exact absurd rfl stays
  have compared : Holds code symbols first ((popData ++ [.store .onlyA (.decrement .a),
      .store .onlyD (.subtractFrom .m)]) ++ .symbol yes :: .jump (.copy .d) jump :: _) := held
  intro machine start
  obtain ⟨middle, climbs, reached | ⟨-, reached⟩⟩ := climbs_branch compared rfl
    (by rw [yesAddress]; exact Nat.add_lt_add_left (by decide : 6 < 12) first) start
  · obtain ⟨result, further, arrived⟩ :=
      ascends_straight above rfl middle (reached.trans yesAddress)
    exact ⟨result, climbs.trans further, arrived⟩
  · obtain ⟨result, further, arrived⟩ := written middle reached
    exact ⟨result, climbs.trans further, arrived⟩

end Code

namespace StackCode

variable {code : Array Instruction} {symbols : String → Word} {first : Nat}
  {generator : Generator} {command : Command} {block : List Statement}

theorem ascends (stack : StackCode generator command block)
    (held : Holds code symbols first block) (resolved : Resolved symbols first block) :
    Ascends code first (first + size block) := by
  cases stack with
  | @operation _ operation _ =>
    cases operation with
    | not | neg | add | sub | and | or => exact ascends_straight held rfl
    | eq | gt | lt =>
      obtain ⟨yes, done⟩ := Code.resolved_compare resolved
      exact Code.ascends_decision held yes done
  | constant => exact ascends_straight held rfl
  | @push _ _ place _ => cases place <;> exact ascends_straight held rfl
  | @pop _ _ place _ => cases place <;> exact ascends_straight held rfl

/-- The labels of a comparison are no labels of a program. -/
theorem labels_plain (stack : StackCode generator command block) {label : String}
    (declared : label ∈ labels block) : ¬ Marked [':'] label := by
  cases stack with
  | @operation _ operation _ =>
    cases operation with
    | not | neg | add | sub | and | or => cases declared
    | eq | gt | lt =>
      have among : label ∈ comparisonSymbols generator.comparisons := declared
      exact fun marked => (marked_comparisonSymbols among).2 (marked.mono (by simp))
  | constant => cases declared
  | @push _ _ place _ => cases place <;> cases declared
  | @pop _ _ place _ => cases place <;> cases declared

end StackCode

namespace Machine

variable {code : Array Instruction} {symbols : String → Word} {stop : Nat} {label : String}
  {machine : Machine}

/-- The machine climbs to a loop, or it is there. -/
def Settles (code : Array Instruction) (stop : Nat) (machine : Machine) : Prop :=
  (∃ result, Climbs code machine result ∧ result.counter = stop) ∨ machine.OnLoop stop

theorem OnLoop.le (inside : machine.OnLoop stop) : stop ≤ machine.counter := by
  rcases inside with start | ⟨second, -⟩
  · exact Nat.le_of_eq start.symm
  · exact second ▸ Nat.le_succ stop

theorem Settles.up_or_onLoop (settles : Settles code stop machine) :
    (∃ next, Machine.step code machine = .ok next ∧ machine.counter < next.counter ∧
      next.counter ≤ stop ∧ Settles code stop next) ∨ machine.OnLoop stop := by
  rcases settles with ⟨result, climbs, reached⟩ | inside
  · cases climbs with
    | refl => exact .inr (.inl reached)
    | @next _ middle _ taken up rest =>
      exact .inl ⟨middle, taken, up, reached ▸ rest.counter_le, .inl ⟨result, rest, reached⟩⟩
  · exact .inr inside

theorem Settles.step (held : Holds code symbols stop (Code.loop label))
    (target : (symbols label).toNat = stop) (settles : Settles code stop machine) :
    ∃ next, Machine.step code machine = .ok next ∧ Settles code stop next := by
  rcases settles.up_or_onLoop with ⟨next, taken, -, -, still⟩ | inside
  · exact ⟨next, taken, still⟩
  · obtain ⟨next, taken, -, still⟩ := (loopAt_of_holds held target).step rfl inside
    exact ⟨next, taken, .inr still⟩

theorem Settles.steps (held : Holds code symbols stop (Code.loop label))
    (target : (symbols label).toNat = stop) (settles : Settles code stop machine) (count : Nat) :
    ∃ later, Machine.steps code count machine = .ok later ∧ Settles code stop later := by
  induction count generalizing machine with
  | zero => exact ⟨machine, rfl, settles⟩
  | succ count ih =>
    obtain ⟨next, taken, still⟩ := settles.step held target
    obtain ⟨later, rest, there⟩ := ih still
    refine ⟨later, ?_, there⟩
    rw [Machine.steps, taken]
    exact rest

end Machine

/-- A command that sends control nowhere: it works on the stack, or declares a label. -/
def Command.isStraight : Command → Bool
  | .label _ => true
  | command => command.isStack

theorem Command.isFunction_of_isStraight {command : Command}
    (straight : command.isStraight = true) : command.isFunction = false := by
  cases command with
  | arithmetic | push | pop | label => rfl
  | goto | ifGoto | function | call | ret => cases straight

/-- A text that can stand in a line of assembly: it ends no line and starts no comment. -/
structure OneLine (text : String) : Prop where
  whole : '\n' ∉ text.toList
  clear : ¬ ['/', '/'] <:+: text.toList

theorem oneLine_of_isSymbol {name : String} (symbol : isSymbol name = true) : OneLine name := by
  refine ⟨newline_symbol symbol, fun slashes => ?_⟩
  have slash : '/' ∈ name.toList := slashes.subset List.mem_cons_self
  exact absurd (isPlain_of_isSymbol symbol _ slash) (by decide)

namespace Text

theorem IsCodeLine.dropReturn {text : List Char} (line : IsCodeLine text) :
    dropReturn text = text := by
  rw [Text.dropReturn, if_neg]
  intro last
  exact absurd (line.bare.last '\r' last) (by decide)

theorem isCodeLine_brackets {word : List Char} (whole : '\n' ∉ word)
    (clear : ¬ ['/', '/'] <:+: word) : IsCodeLine (['('] ++ (word ++ [')'])) := by
  refine ⟨List.cons_ne_nil _ _, ?_, ?_, ?_, ?_⟩
  · simp only [List.mem_append, not_or]
    exact ⟨by decide, whole, by decide⟩
  · rw [slashes_infix_append (by decide), slashes_infix_concat (by decide)]
    exact clear
  · intro c head
    cases head
    decide
  · intro c last
    rw [← List.append_assoc, List.getLast?_concat] at last
    cases last
    decide

end Text

theorem readable_label {name : String} (line : OneLine name) :
    (Statement.label name).Readable := by
  have chars : (Statement.label name).text.toList = ['('] ++ (name.toList ++ [')']) := by
    simp [Statement.text]
  have row := Text.isCodeLine_brackets line.whole line.clear
  rw [← chars] at row
  refine ⟨row.whole, ?_, row.nonempty, Statement.ofText_label _⟩
  rw [row.dropReturn, row.code]

theorem oneLine_resolve {module label : String} (symbol : isSymbol module = true)
    (line : OneLine label) : OneLine ((Scope.module module).resolve label) := by
  have chars : ((Scope.module module).resolve label).toList =
      (module.toList ++ [':']) ++ label.toList := by
    simp [Scope.resolve]
  have plain : ∀ c, Text.isPlain c = false → c ∉ module.toList ++ [':'] := by
    intro c special member
    rcases List.mem_append.mp member with inside | colon
    · rw [isPlain_of_isSymbol symbol c inside] at special
      cases special
    · rw [List.mem_singleton.mp colon] at special
      exact absurd special (by decide)
  constructor
  · rw [chars, List.mem_append, not_or]
    exact ⟨plain '\n' (by decide), line.whole⟩
  · rw [chars, Text.slashes_infix_append (plain '/' (by decide))]
    exact line.clear

namespace Compilation

/-- Compiles commands at the top of a module, without a start, and ends the program. -/
def compileTopLevel (name : String) (commands : List Command) : CompileM MemorySink Error Unit := do
  enterModule name
  compileAll commands
  finish

end Compilation

def topSites (name : String) (commands : List Command) : List Site :=
  (({} : Generator).enter name).sites commands

theorem listing_top (name : String) (commands : List Command) :
    listing false [⟨name, commands⟩] = topSites name commands ++ [.loop Code.endLabel] := by
  simp [listing, startState, Generator.moduleSites, topSites]

theorem mem_listing_top {name : String} {commands : List Command} {site : Site} :
    site ∈ listing false [⟨name, commands⟩] ↔
      site ∈ topSites name commands ∨ site = .loop Code.endLabel := by
  rw [listing_top, List.mem_append, List.mem_singleton]

theorem blocks_top (name : String) (commands : List Command) :
    blocks false [⟨name, commands⟩] =
      (topSites name commands).map Site.block ++ [(({} : Generator).close).2] := by
  simp [blocks, startState, Generator.moduleSites, topSites]

theorem Compilation.compileTopLevel_ok {name : String} {commands : List Command}
    {final : Compilation MemorySink}
    (run : compileTopLevel name commands { sink := {} } = .ok () final) :
    isSymbol name = true ∧ (∀ site ∈ topSites name commands, site.Accepted) ∧
      final.sink.content =
        (String.join ((blocks false [⟨name, commands⟩]).map Block.text)).toUTF8 := by
  obtain ⟨_, entered, first, run⟩ := run_bind_ok run
  obtain ⟨_, compiled, second, last⟩ := run_bind_ok run
  obtain ⟨symbol, state, sink⟩ := enterModule_ok first
  obtain ⟨accepted, -, head⟩ := compileAll_ok second (sink ▸ ⟨rfl, rfl⟩)
  have tail := finish_ok last head.1
  obtain ⟨-, whole⟩ := head.trans tail
  rw [state] at accepted whole
  refine ⟨symbol, accepted, ?_⟩
  rw [whole, sink, ByteArray.empty_append, blocks_top, List.map_append, String.join_append,
    List.map_map]
  exact congrArg (fun last => (textOf _ ++ last).toUTF8) String.append_empty.symm

namespace Generator

variable {generator : Generator}

theorem mem_sites_straight {commands : List Command}
    (straight : ∀ command ∈ commands, command.isStraight = true) {site : Site}
    (member : site ∈ generator.sites commands) :
    ∃ state command, site = .compiled state command ∧ command ∈ commands ∧
      state.module = generator.module ∧ state.scope = generator.scope := by
  induction commands generalizing generator with
  | nil => cases member
  | cons command rest ih =>
    rcases List.mem_cons.mp member with rfl | member
    · exact ⟨generator, command, rfl, List.mem_cons_self, rfl, rfl⟩
    · have module := generator.advance_module command
      have scope := generator.advance_scope (Command.isFunction_of_isStraight
        (straight command List.mem_cons_self))
      obtain ⟨state, found, same, inside, known, top⟩ :=
        ih (fun other among => straight other (List.mem_cons_of_mem _ among)) member
      exact ⟨state, found, same, List.mem_cons_of_mem _ inside, known.trans module,
        top.trans scope⟩

end Generator

/-- Code in which every statement but a declaration is an instruction, and at most every other one
refers to a symbol. -/
structure Regular (code : List Statement) : Prop where
  closed : ∀ statement ∈ code, statement.isClosed = true
  sparse : 2 * (references code).length ≤ size code

theorem Tidy.regular {code : List Statement} (tidy : Tidy code) : Regular code :=
  ⟨fun statement member => (tidy.legal statement member).isClosed, tidy.sparse⟩

theorem regular_codeOf {sites : List Site} (each : ∀ site ∈ sites, Regular site.code) :
    Regular (codeOf sites) := by
  induction sites with
  | nil => exact Tidy.nil.regular
  | cons site rest ih =>
    have head := each site List.mem_cons_self
    have tail := ih fun other member => each other (List.mem_cons_of_mem _ member)
    refine ⟨fun statement member => ?_, ?_⟩
    · rcases List.mem_append.mp member with here | there
      · exact head.closed statement here
      · exact tail.closed statement there
    · have first := head.sparse
      have others := tail.sparse
      rw [codeOf_cons, references_append, size_append, List.length_append]
      omega

theorem ascends_codeOf {code : Array Instruction} {sites : List Site} {first : Nat}
    (each : ∀ before site after, sites = before ++ site :: after →
      Ascends code (first + size (codeOf before)) (first + size (codeOf before) + size site.code)) :
    Ascends code first (first + size (codeOf sites)) := by
  induction sites generalizing first with
  | nil => exact fun machine start => ⟨machine, .refl machine, start⟩
  | cons site rest ih =>
    have head := each [] site rest rfl
    have tail := @ih (first + size site.code) fun before other after split => by
      have whole := each (site :: before) other after (by rw [split]; rfl)
      rwa [codeOf_cons, size_append, ← Nat.add_assoc] at whole
    rw [codeOf_cons, size_append, ← Nat.add_assoc]
    exact head.trans tail

/-- Commands at the top of a module that have code and send control nowhere, with labels that stay
in their lines. -/
structure TopLevel (name : String) (commands : List Command) : Prop where
  symbol : isSymbol name = true
  straight : ∀ command ∈ commands, command.isStraight = true
  lines : ∀ label, .label label ∈ commands → OneLine label
  accepted : ∀ site ∈ topSites name commands, site.Accepted

namespace TopLevel

variable {name : String} {commands : List Command} {program : Program}

theorem site_cases (top : TopLevel name commands) {site : Site}
    (member : site ∈ topSites name commands) :
    (∃ generator command code, site = .compiled generator command ∧
      isSymbol generator.module = true ∧ command.isStack = true ∧
      generator.code command = .ok code) ∨
    ∃ generator label, site = .compiled generator (.label label) ∧ OneLine label ∧
      generator.scope = .module name := by
  obtain ⟨generator, command, rfl, inside, module, scope⟩ :=
    Generator.mem_sites_straight top.straight member
  obtain ⟨code, generated⟩ := top.accepted _ member
  have straight := top.straight command inside
  cases command with
  | label label => exact .inr ⟨generator, label, rfl, top.lines label inside, scope⟩
  | arithmetic | push | pop =>
    exact .inl ⟨generator, _, code, rfl, module ▸ top.symbol, rfl, generated⟩
  | goto | ifGoto | function | call | ret => cases straight

theorem readable (top : TopLevel name commands) :
    ∀ block ∈ blocks false [⟨name, commands⟩], block.Readable := by
  intro block member
  rw [blocks_top] at member
  rcases List.mem_append.mp member with member | last
  · obtain ⟨site, inside, rfl⟩ := List.mem_map.mp member
    obtain ⟨generator, command, code, rfl, module, stack, generated⟩ |
      ⟨generator, label, rfl, line, scope⟩ := top.site_cases inside
    · rw [Site.block, Site.code_of_ok generated]
      exact (legal_of_stack module stack generated).readable
    · constructor
      · refine newline_spell fun argument among => ?_
        rw [List.mem_singleton.mp among]
        exact line.whole
      · intro statement among
        simp only [Site.block, Site.code, Generator.code, scope] at among
        rw [List.mem_singleton.mp among]
        exact readable_label (oneLine_resolve top.symbol line)
  · rw [List.mem_singleton.mp last]
    have legal : (({} : Generator).close).2.Legal := ⟨by decide, by decide⟩
    exact legal.readable

theorem ofSource (top : TopLevel name commands) :
    Statement.ofSource (String.join ((blocks false [⟨name, commands⟩]).map Block.text)) =
      codeOf (listing false [⟨name, commands⟩]) := by
  rw [ofSource_blocks _ top.readable, code_blocks]

theorem regular (top : TopLevel name commands) :
    Regular (codeOf (listing false [⟨name, commands⟩])) := by
  refine regular_codeOf fun site member => ?_
  rcases mem_listing_top.mp member with inside | rfl
  · obtain ⟨generator, command, code, rfl, module, stack, generated⟩ |
      ⟨generator, label, rfl, line, scope⟩ := top.site_cases inside
    · rw [Site.code_of_ok generated]
      exact (tidy_of_stack module stack generated).regular
    · exact ⟨fun statement among => by rw [List.mem_singleton.mp among]; rfl, Nat.zero_le _⟩
  · exact (Code.tidy_loop (by decide : isSymbol Code.endLabel = true)).regular

theorem accepted_listing (top : TopLevel name commands) :
    ∀ site ∈ listing false [⟨name, commands⟩], site.Accepted := by
  intro site member
  rcases mem_listing_top.mp member with inside | rfl
  · exact top.accepted site inside
  · trivial

/-- No function is declared, and the labels of the program have a colon. -/
theorem declared_cases (top : TopLevel name commands) {site : Site}
    (member : site ∈ listing false [⟨name, commands⟩]) :
    site.functions = [] ∧ ∀ label ∈ site.localLabels, Marked [':'] (labelSymbol label) := by
  rcases mem_listing_top.mp member with inside | rfl
  · obtain ⟨generator, command, code, rfl, -, stack, -⟩ | ⟨generator, word, rfl, -, scope⟩ :=
      top.site_cases inside
    · cases command with
      | arithmetic | push | pop => exact ⟨rfl, fun _ here => absurd here List.not_mem_nil⟩
      | label | goto | ifGoto | function | call | ret => cases stack
    · refine ⟨rfl, fun label here => ?_⟩
      rw [List.mem_singleton.mp here, labelSymbol, scope]
      exact ⟨':', List.mem_singleton_self _, by simp [Scope.resolve]⟩
  · exact ⟨rfl, fun _ here => absurd here List.not_mem_nil⟩

/-- A symbol without a colon, as the generator makes them itself, is declared at most once. -/
theorem count_labels (top : TopLevel name commands) {label : String}
    (plain : ¬ Marked [':'] label) :
    (labels (codeOf (listing false [⟨name, commands⟩]))).count label ≤ 1 := by
  have functions : (listing false [⟨name, commands⟩]).flatMap Site.functions = [] :=
    List.flatMap_eq_nil_iff.mpr fun site member => (top.declared_cases member).1
  have chosen : label ∉ labelSymbols (listing false [⟨name, commands⟩]) := by
    intro member
    obtain ⟨word, inside, rfl⟩ := List.mem_map.mp member
    obtain ⟨site, among, here⟩ := List.mem_flatMap.mp inside
    exact plain ((top.declared_cases among).2 word here)
  rw [(perm_declaredSymbols top.accepted_listing).count_eq, declaredSymbols, functions,
    List.nil_append, List.count_append, List.count_eq_zero_of_not_mem chosen, Nat.zero_add]
  exact List.nodup_iff_count_le_one.mp (nodup_ownSymbols false [⟨name, commands⟩]) label

theorem toNat_value (top : TopLevel name commands)
    (assembled : assemble (codeOf (listing false [⟨name, commands⟩])) = .ok program)
    {before later : List Statement} {label : String} (plain : ¬ Marked [':'] label)
    (split : codeOf (listing false [⟨name, commands⟩]) = before ++ .label label :: later) :
    (program.value label).toNat = size before := by
  have once := top.count_labels plain
  rw [split] at assembled once
  refine toNat_value_label assembled fun again => ?_
  have more : 0 < (labels later).count label := List.count_pos_iff.mpr again
  have here : labels (before ++ .label label :: later) =
      labels before ++ label :: labels later := by
    rw [labels_append]
    rfl
  rw [here, List.count_append, List.count_cons_self] at once
  omega

/-- From the start, execution goes up to the final loop. -/
theorem ascends (top : TopLevel name commands)
    (assembled : assemble (codeOf (listing false [⟨name, commands⟩])) = .ok program) :
    Ascends program.code 0 (size (codeOf (topSites name commands))) := by
  have held := holds_of_closed top.regular.closed assembled
  have each : ∀ before site after, topSites name commands = before ++ site :: after →
      Ascends program.code (0 + size (codeOf before))
        (0 + size (codeOf before) + size site.code) := by
    intro before site after split
    have whole : codeOf (listing false [⟨name, commands⟩]) =
        codeOf before ++ (site.code ++ codeOf (after ++ [.loop Code.endLabel])) := by
      rw [listing_top, split]
      simp
    rw [whole] at held
    have here := (holds_append.mp (holds_append.mp held).2).1
    have member : site ∈ topSites name commands := by
      rw [split]
      simp
    obtain ⟨generator, command, code, rfl, -, stack, generated⟩ | ⟨generator, label, rfl, -, -⟩ :=
      top.site_cases member
    · rw [Site.code_of_ok generated] at here whole ⊢
      have shape := stackCode_of_ok stack generated
      refine shape.ascends here ?_
      rintro head label tail rfl
      have declared : label ∈ labels (head ++ .label label :: tail) := by
        rw [mem_labels]
        simp
      rw [List.append_assoc, ← List.append_assoc (codeOf before)] at whole
      rw [Nat.zero_add, ← size_append]
      exact top.toNat_value assembled (shape.labels_plain declared) whole
    · exact ascends_straight here rfl
  have whole := ascends_codeOf each
  rwa [Nat.zero_add] at whole

/-- The final loop stands behind all commands, and its label has its address. -/
theorem loop (top : TopLevel name commands)
    (assembled : assemble (codeOf (listing false [⟨name, commands⟩])) = .ok program) :
    Holds program.code program.value (size (codeOf (topSites name commands)))
        (Code.loop Code.endLabel) ∧
      (program.value Code.endLabel).toNat = size (codeOf (topSites name commands)) := by
  have whole : codeOf (listing false [⟨name, commands⟩]) =
      codeOf (topSites name commands) ++ Code.loop Code.endLabel := by
    rw [listing_top, codeOf_append]
    exact congrArg (codeOf (topSites name commands) ++ ·) (List.append_nil _)
  have held := holds_of_closed top.regular.closed assembled
  rw [whole] at held
  have behind := (holds_append.mp held).2
  rw [Nat.zero_add] at behind
  exact ⟨behind, top.toNat_value assembled (by decide) whole⟩

theorem load (top : TopLevel name commands)
    (fits : size (codeOf (listing false [⟨name, commands⟩])) ≤ maxConstant) :
    ∃ program, assemble (codeOf (listing false [⟨name, commands⟩])) = .ok program := by
  refine assemble_succeeds fits ?_
  have sparse := top.regular.sparse
  simp only [firstVariable, maxConstant] at fits ⊢
  omega

end TopLevel

/-- A program of stack commands and labels reaches its end, whatever memory holds. It loads if it
has no more instructions than there are addresses, and the loop at its end is its last two. From the
first instruction, with anything in memory and registers, no step fails, every step below the loop
goes up, and after at most as many steps as there are instructions below the loop the machine has
halted there. -/
theorem straight_line_reaches_end {name : String} {commands : List Command}
    (straight : ∀ command ∈ commands, command.isStraight = true)
    (lines : ∀ label, .label label ∈ commands → OneLine label) {final : Compilation MemorySink}
    (run : Compilation.compileTopLevel name commands { sink := {} } = .ok () final) {text : String}
    (content : final.sink.content = text.toUTF8)
    (fits : size (Statement.ofSource text) ≤ maxConstant) :
    ∃ program stop, Program.load text = .ok program ∧ program.symbol Code.endLabel = .ok stop ∧
      stop.toNat + 2 = program.code.size ∧ ∀ machine : Machine, machine.counter = 0 →
        (∀ count, ∃ state, steps program.code count machine = .ok state ∧
          (state.counter < stop.toNat → ∃ next, step program.code state = .ok next ∧
            state.counter < next.counter ∧ next.counter ≤ stop.toNat)) ∧
        ∃ count ≤ stop.toNat, ∃ last, steps program.code count machine = .ok last ∧
          last.counter = stop.toNat ∧ checkHalted program.code last = .ok true := by
  obtain ⟨symbol, accepted, written⟩ := Compilation.compileTopLevel_ok run
  obtain rfl := String.toByteArray_inj.mp (content.symm.trans written)
  have top : TopLevel name commands := ⟨symbol, straight, lines, accepted⟩
  rw [top.ofSource] at fits
  obtain ⟨program, assembled⟩ := top.load fits
  obtain ⟨held, target⟩ := top.loop assembled
  have whole : size (codeOf (listing false [⟨name, commands⟩])) =
      size (codeOf (topSites name commands)) + 2 := by
    rw [listing_top, codeOf_append, size_append]
    rfl
  refine ⟨program, program.value Code.endLabel, ?_, ?_, ?_, fun machine start => ⟨?_, ?_⟩⟩
  · rw [Program.load, top.ofSource]
    exact assembled
  · refine symbol_of_mem_references assembled ?_
    rw [listing_top, codeOf_append, references_append]
    exact List.mem_append_right _ List.mem_cons_self
  · obtain ⟨-, -, -, code⟩ := assemble_ok assembled
    rw [← Array.length_toList, code, length_instructions _ top.regular.closed, target, whole]
  · intro count
    obtain ⟨result, climbs, reached⟩ := top.ascends assembled machine start
    have settles : Settles program.code _ machine := .inl ⟨result, climbs, reached⟩
    obtain ⟨state, ran, still⟩ := settles.steps held target count
    rw [target]
    refine ⟨state, ran, fun below => ?_⟩
    rcases still.up_or_onLoop with ⟨next, taken, up, bound, -⟩ | inside
    · exact ⟨next, taken, up, bound⟩
    · exact absurd below (Nat.not_lt.mpr inside.le)
  · obtain ⟨result, climbs, reached⟩ := top.ascends assembled machine start
    obtain ⟨count, bound, ran⟩ := climbs.steps
    rw [target]
    exact ⟨count, by omega, result, ran, reached, halted_loop held target reached (by omega)⟩

def compilesTopLevel (name : String) (commands : List Command) : Bool :=
  match Compilation.compileTopLevel name commands ({ sink := {} } : Compilation MemorySink) with
  | .ok .. => true
  | .error .. => false

theorem exists_compileTopLevel {name : String} {commands : List Command}
    (compiled : compilesTopLevel name commands = true) :
    ∃ final, Compilation.compileTopLevel name commands { sink := {} } = .ok () final ∧
      final.sink.content =
        (String.join ((blocks false [⟨name, commands⟩]).map Block.text)).toUTF8 := by
  unfold compilesTopLevel at compiled
  split at compiled
  · rename_i final run
    exact ⟨final, run, (Compilation.compileTopLevel_ok run).2.2⟩
  · cases compiled

/-- Labels that spell symbols of the generator, around a comparison with a static. -/
def lookalikes : List Command :=
  [.label "TRUE_0", .push .static 0, .push .constant 7, .arithmetic "lt", .label "VM$END",
    .label "TRUE_0", .pop .that 2]

theorem straight_line_reaches_end_lookalikes : ∃ final text program stop,
    Compilation.compileTopLevel "TRUE_0" lookalikes { sink := {} } = .ok () final ∧
      final.sink.content = text.toUTF8 ∧ Program.load text = .ok program ∧
      program.symbol Code.endLabel = .ok stop ∧
      ∀ memory a d, ∃ count ≤ stop.toNat, ∃ last,
        steps program.code count ⟨memory, 0, a, d⟩ = .ok last ∧
          checkHalted program.code last = .ok true := by
  obtain ⟨final, run, content⟩ := @exists_compileTopLevel "TRUE_0" lookalikes (by decide +kernel)
  have lines : ∀ label, .label label ∈ lookalikes → OneLine label := by
    simp only [lookalikes, List.mem_cons, List.not_mem_nil, reduceCtorEq, Command.label.injEq,
      false_or, or_false]
    rintro label (rfl | rfl | rfl) <;> exact oneLine_of_isSymbol (by decide)
  obtain ⟨module, accepted, -⟩ := Compilation.compileTopLevel_ok run
  have top : TopLevel "TRUE_0" lookalikes := ⟨module, by decide, lines, accepted⟩
  obtain ⟨program, stop, loaded, symbol, -, reaches⟩ :=
    straight_line_reaches_end (by decide) lines run content (by rw [top.ofSource]; decide)
  refine ⟨final, _, program, stop, run, content, loaded, symbol, fun memory a d => ?_⟩
  obtain ⟨-, count, bound, last, ran, -, halted⟩ := reaches ⟨memory, 0, a, d⟩ rfl
  exact ⟨count, bound, last, ran, halted⟩

theorem Machine.steps_stuck {code : Array Instruction} {machine : Machine}
    (load : code[0]? = some (.address 1))
    (jump : code[1]? = some (.compute .none (.known .zero) (.known .always)))
    (low : machine.counter = 0 ∨ machine.counter = 1 ∧ machine.a = 1) (count : Nat) :
    ∃ state, steps code count machine = .ok state ∧ state.counter ≤ 1 ∧
      checkHalted code state = .ok false := by
  induction count generalizing machine with
  | zero =>
    have bound : machine.counter ≤ 1 := by omega
    refine ⟨machine, rfl, bound, ?_⟩
    rw [checkHalted_of_lt (by simp only [counterLimit, UInt64.size]; omega)]
    rcases low with start | ⟨second, -⟩
    · simp [halted, start, load]
    · simp [halted, second, jump]
  | succ count ih =>
    obtain ⟨next, taken, still⟩ : ∃ next, step code machine = .ok next ∧
        (next.counter = 0 ∨ next.counter = 1 ∧ next.a = 1) := by
      rcases low with start | ⟨second, address⟩
      · refine ⟨{ machine with a := 1, counter := machine.counter + 1 }, ?_, .inr ⟨?_, rfl⟩⟩
        · simp only [step, start, load]
        · exact congrArg (· + 1) start
      · refine ⟨{ machine with counter := machine.a.toNat }, ?_, .inr ⟨?_, address⟩⟩
        · simp only [step, second, jump]
          rfl
        · exact congrArg BitVec.toNat address
    obtain ⟨state, ran, bound, going⟩ := ih still
    refine ⟨state, ?_, bound, going⟩
    rw [steps, taken]
    exact ran

/-- A label that ends its line. Behind that it smuggles in a jump to itself. -/
def smuggled : Command := .label "L)\n@1\n0;JMP\n//"

/-- The labels have to stay in their lines. Else one of them can hold a jump back, and the program
runs below its end for ever. -/
theorem straight_line_never_ends : smuggled.isStraight = true ∧ ∃ final text program stop,
    Compilation.compileTopLevel "M" [smuggled] { sink := {} } = .ok () final ∧
      final.sink.content = text.toUTF8 ∧ size (Statement.ofSource text) ≤ maxConstant ∧
      Program.load text = .ok program ∧ program.symbol Code.endLabel = .ok stop ∧
      ∀ machine : Machine, machine.counter = 0 → ∀ count, ∃ state,
        steps program.code count machine = .ok state ∧ state.counter < stop.toNat ∧
          checkHalted program.code state = .ok false := by
  let back : List Statement := [.number 1, .jump .zero .always]
  let statements := back ++ .label "M:L" :: back ++ Code.loop Code.endLabel
  obtain ⟨final, run, content⟩ := @exists_compileTopLevel "M" [smuggled] (by decide +kernel)
  have read : Statement.ofSource
      (String.join ((blocks false [⟨"M", [smuggled]⟩]).map Block.text)) = statements := by
    decide +kernel
  have fits : size statements ≤ maxConstant := by decide
  obtain ⟨program, assembled⟩ := assemble_succeeds fits (by decide)
  have stop : (program.value Code.endLabel).toNat = 4 :=
    toNat_value_label assembled (by decide)
  obtain ⟨load, jump, -⟩ := holds_of_closed (by decide) assembled
  refine ⟨rfl, final, _, program, program.value Code.endLabel, run, content, read ▸ fits,
    (congrArg assemble read).trans assembled,
    symbol_of_mem_references assembled (by decide), fun machine start count => ?_⟩
  obtain ⟨state, ran, bound, going⟩ :=
    steps_stuck (load _ rfl) (jump _ rfl) (.inl start) count
  exact ⟨state, ran, by omega, going⟩

end HackStack
