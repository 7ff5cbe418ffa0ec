import HackStack.Proofs.Compiler.Output

/-! The generator writes legal code: every symbol of a listing is a symbol, so that the output is
read back as the listing's statements, and it loads as long as it fits. -/
namespace HackStack
open Assembly

theorem isSymbol_append {name text : String} (symbol : isSymbol name = true)
    (chars : ∀ c ∈ text.toList, isSymbolChar c = true) : isSymbol (name ++ text) = true := by
  unfold isSymbol at symbol
  split at symbol
  · contradiction
  · rename_i first rest spelled
    rw [Bool.and_eq_true] at symbol
    have joined : (name ++ text).toList = first :: (rest ++ text.toList) := by
      rw [String.toList_append, spelled, List.cons_append]
    simp only [isSymbol, joined, Bool.and_eq_true]
    refine ⟨symbol.1, List.all_eq_true.mpr fun c member => ?_⟩
    rcases List.mem_append.mp (List.cons_append ▸ member) with inside | added
    · exact List.all_eq_true.mp symbol.2 c inside
    · exact chars c added

theorem isDigit_of_mem_repr {n : Nat} {c : Char} (member : c ∈ n.repr.toList) :
    c.isDigit = true := by
  apply Nat.isDigit_of_mem_toDigits (b := 10) (by decide) (by decide)
  simpa using member

theorem not_mem_repr {c : Char} (other : c.isDigit = false) (n : Nat) : c ∉ n.repr.toList := by
  intro member
  rw [isDigit_of_mem_repr member] at other
  cases other

theorem isSymbolChar_of_mem_repr {n : Nat} {c : Char} (member : c ∈ n.repr.toList) :
    isSymbolChar c = true := by
  simp [isSymbolChar, Char.isAlphanum, isDigit_of_mem_repr member]

theorem isSymbol_append_repr {name : String} (n : Nat) (symbol : isSymbol name = true) :
    isSymbol (name ++ n.repr) = true :=
  isSymbol_append symbol fun _ => isSymbolChar_of_mem_repr

def Scope.name : Scope → String
  | .function name => name
  | .module name => name

theorem isSymbol_resolve {scope : Scope} {label : String} (named : isSymbol scope.name = true)
    (symbol : isSymbol label = true) : isSymbol (scope.resolve label) = true := by
  have mark : ∀ name separator : String, isSymbol name = true →
      (∀ c ∈ separator.toList, isSymbolChar c = true) →
      isSymbol (name ++ separator ++ label) = true := fun name separator name_ char =>
    isSymbol_append (isSymbol_append name_ char) (isSymbolChar_of_isSymbol symbol)
  cases scope with
  | function name => exact mark name "$" named (List.all_eq_true.mp (by decide))
  | module name => exact mark name ":" named (List.all_eq_true.mp (by decide))

structure Generator.Named (generator : Generator) : Prop where
  module : isSymbol generator.module = true
  scope : isSymbol generator.scope.name = true

namespace Generator.Named

theorem advance {generator : Generator} {command : Command} (named : generator.Named)
    (symbols : command.Named) : (generator.advance command).Named := by
  cases command with
  | function name locals => exact ⟨named.module, symbols⟩
  | arithmetic mnemonic =>
    simp only [Generator.advance]
    split <;> exact ⟨named.module, named.scope⟩
  | push | pop | label | goto | ifGoto | call | ret => exact ⟨named.module, named.scope⟩

theorem returnSymbol {generator : Generator} (named : generator.Named) :
    isSymbol generator.returnSymbol = true :=
  isSymbol_append_repr _ (isSymbol_append named.module (List.all_eq_true.mp (by decide)))

theorem staticSymbol {generator : Generator} (named : generator.Named) (index : Word) :
    isSymbol (generator.staticSymbol index) = true :=
  isSymbol_append_repr _ (isSymbol_append named.module (List.all_eq_true.mp (by decide)))

end Generator.Named

def Site.Named : Site → Prop
  | .setStack => True
  | .loop label => isSymbol label = true
  | .compiled generator command => generator.Named ∧ command.Named

theorem Generator.sites_named {generator : Generator} {commands : List Command}
    (named : generator.Named) (symbols : ∀ command ∈ commands, command.Named) :
    ∀ site ∈ generator.sites commands, site.Named := by
  induction commands generalizing generator with
  | nil => exact fun _ member => absurd member List.not_mem_nil
  | cons command rest ih =>
    have first := symbols command List.mem_cons_self
    intro site member
    rcases List.mem_cons.mp member with rfl | member
    · exact ⟨named, first⟩
    · exact ih (named.advance first)
        (fun other inside => symbols other (List.mem_cons_of_mem _ inside)) site member

theorem Generator.moduleSites_named {generator : Generator} {modules : List Module}
    (names : ∀ module ∈ modules, isSymbol module.name = true)
    (symbols : ∀ module ∈ modules, ∀ command ∈ module.commands, command.Named) :
    ∀ site ∈ generator.moduleSites modules, site.Named := by
  induction modules generalizing generator with
  | nil => exact fun _ member => absurd member List.not_mem_nil
  | cons module rest ih =>
    have name := names module List.mem_cons_self
    have first := symbols module List.mem_cons_self
    have entered : (generator.enter module.name).Named := ⟨name, name⟩
    intro site member
    rcases List.mem_append.mp member with here | there
    · exact sites_named entered first site here
    · exact ih (fun other inside => names other (List.mem_cons_of_mem _ inside))
        (fun other inside => symbols other (List.mem_cons_of_mem _ inside)) site there

theorem Listed.named {bootstrap : Bool} {modules : List Module} {text : String}
    (listed : Listed bootstrap modules text) :
    ∀ site ∈ listing bootstrap modules, site.Named := by
  intro site member
  rcases List.mem_append.mp member with member | last
  · rcases List.mem_append.mp member with first | inside
    · cases bootstrap with
      | false => simp at first
      | true =>
        simp only [startSites, if_true, List.mem_cons, List.not_mem_nil, or_false] at first
        rcases first with rfl | rfl | rfl
        · trivial
        · exact ⟨⟨by decide, by decide⟩, (by decide : isSymbol Code.entryFunction = true)⟩
        · exact (by decide : isSymbol Code.haltLabel = true)
    · exact Generator.moduleSites_named listed.names listed.commands site inside
  · rw [List.mem_singleton.mp last]
    exact (by decide : isSymbol Code.endLabel = true)

instance : DecidablePred Statement.Legal
  | .label name => inferInstanceAs (Decidable (isSymbol name = true))
  | .unclosed _ => inferInstanceAs (Decidable False)
  | .address (.number _) => inferInstanceAs (Decidable True)
  | .address (.symbol name) => inferInstanceAs (Decidable (isSymbol name = true))
  | .compute _ (.known _) (.known _) => inferInstanceAs (Decidable True)
  | .compute _ (.known _) (.unknown _) => inferInstanceAs (Decidable False)
  | .compute _ (.unknown _) _ => inferInstanceAs (Decidable False)

/-- Legal code of which at most every other statement refers to a symbol. -/
structure Tidy (code : List Statement) : Prop where
  legal : ∀ statement ∈ code, statement.Legal
  sparse : 2 * (references code).length ≤ size code

namespace Tidy

theorem nil : Tidy [] :=
  ⟨fun _ member => absurd member List.not_mem_nil, Nat.le_refl 0⟩

theorem append {first second : List Statement} (left : Tidy first) (right : Tidy second) :
    Tidy (first ++ second) := by
  refine ⟨fun statement member => ?_, ?_⟩
  · rcases List.mem_append.mp member with here | there
    · exact left.legal statement here
    · exact right.legal statement there
  · rw [references_append, size_append, List.length_append]
    have := left.sparse
    have := right.sparse
    omega

theorem flatten {pieces : List (List Statement)} (each : ∀ piece ∈ pieces, Tidy piece) :
    Tidy pieces.flatten := by
  induction pieces with
  | nil => exact nil
  | cons piece rest ih =>
    exact (each piece List.mem_cons_self).append
      (ih fun other member => each other (List.mem_cons_of_mem _ member))

theorem flatMap {entries : List α} {code : α → List Statement}
    (each : ∀ entry ∈ entries, Tidy (code entry)) : Tidy (entries.flatMap code) := by
  rw [List.flatMap_def]
  refine flatten fun piece member => ?_
  obtain ⟨entry, inside, rfl⟩ := List.mem_map.mp member
  exact each entry inside

theorem cons {statement : Statement} {rest : List Statement} (legal : statement.Legal)
    (silent : statement.reference? = none) (tail : Tidy rest) : Tidy (statement :: rest) := by
  refine ⟨fun other member => ?_, ?_⟩
  · rcases List.mem_cons.mp member with rfl | member
    · exact legal
    · exact tail.legal other member
  · have same : references (statement :: rest) = references rest := by
      simp [references, silent]
    rw [same, size_cons]
    have := tail.sparse
    omega

theorem load {name : String} {destination : Destination} {computation : Computation}
    {jump : Jump} {rest : List Statement} (symbol : isSymbol name = true) (tail : Tidy rest) :
    Tidy (.symbol name :: .compute destination (.known computation) (.known jump) :: rest) := by
  refine ⟨fun other member => ?_, ?_⟩
  · rcases List.mem_cons.mp member with rfl | member
    · exact symbol
    · rcases List.mem_cons.mp member with rfl | member
      · trivial
      · exact tail.legal other member
  · have := tail.sparse
    simp only [references, Statement.symbol, Statement.reference?, List.filterMap_cons,
      List.length_cons]
    rw [size_cons, size_cons _ rest]
    simp only [references] at this
    have one : size [Statement.address (.symbol name)] = 1 := rfl
    have other : size [Statement.compute destination (.known computation) (.known jump)] = 1 := rfl
    omega

end Tidy

namespace Code

theorem tidy_pushData : Tidy pushData := ⟨by decide, by decide⟩

theorem tidy_popData : Tidy popData := ⟨by decide, by decide⟩

theorem tidy_pushZero : Tidy pushZero := ⟨by decide, by decide⟩

theorem tidy_setStack : Tidy setStack := ⟨by decide, by decide⟩

theorem tidy_goto {symbol : String} (legal : isSymbol symbol = true) : Tidy (goto symbol) :=
  .load legal .nil

theorem tidy_ifGoto {symbol : String} (legal : isSymbol symbol = true) : Tidy (ifGoto symbol) :=
  tidy_popData.append (.load legal .nil)

theorem tidy_loop {label : String} (legal : isSymbol label = true) : Tidy (loop label) :=
  .cons legal rfl (tidy_goto legal)

theorem tidy_pushConstant (value : Nat) : Tidy (pushConstant value) :=
  .cons trivial rfl (.cons trivial rfl tidy_pushData)

def Place.Named : Place → Prop
  | .based base _ => isSymbol base = true
  | .direct symbol => isSymbol symbol = true

theorem tidy_pushFrom {place : Place} (named : place.Named) : Tidy (pushFrom place) := by
  cases place with
  | based base offset =>
    exact .load named (.cons trivial rfl (.cons trivial rfl (.cons trivial rfl tidy_pushData)))
  | direct symbol => exact .load named tidy_pushData

theorem tidy_popTo {place : Place} (named : place.Named) : Tidy (popTo place) := by
  cases place with
  | based base offset =>
    have target : Tidy [.symbol base, .store .onlyD (.copy .m), .number offset,
        .store .onlyD (.add .a), .symbol "R13", .store .onlyM (.copy .d)] :=
      .load named (.cons trivial rfl (.cons trivial rfl (.load (by decide) .nil)))
    have value : Tidy [.symbol "R13", .store .onlyA (.copy .m), .store .onlyM (.copy .d)] :=
      .load (by decide) (.cons trivial rfl .nil)
    exact (target.append tidy_popData).append value
  | direct symbol => exact tidy_popData.append (.load named .nil)

theorem tidy_unary (computation : Computation) : Tidy (unary computation) :=
  .load (by decide) (.cons trivial rfl .nil)

theorem tidy_binary (computation : Computation) : Tidy (binary computation) :=
  tidy_popData.append (.cons trivial rfl (.cons trivial rfl .nil))

theorem tidy_compare (count : Nat) (jump : Jump) : Tidy (compare count jump) := by
  have yes : isSymbol ("TRUE_" ++ count.repr) = true := isSymbol_append_repr count (by decide)
  have done : isSymbol ("END_" ++ count.repr) = true := isSymbol_append_repr count (by decide)
  have stack : isSymbol "SP" = true := by decide
  have positive : Tidy [.label ("TRUE_" ++ count.repr), .symbol "SP",
      .store .onlyA (.decrement .m), .store .onlyM .minusOne, .label ("END_" ++ count.repr)] :=
    .cons yes rfl (.load stack (.cons trivial rfl (.cons done rfl .nil)))
  exact tidy_popData.append (.cons trivial rfl (.cons trivial rfl (.load yes
    (.load stack (.cons trivial rfl (.load done positive))))))

theorem tidy_operation (count : Nat) (operation : Operation) :
    Tidy (Code.operation count operation) := by
  cases operation with
  | not | neg => exact tidy_unary _
  | add | sub | and | or => exact tidy_binary _
  | eq | gt | lt => exact tidy_compare count _

theorem tidy_function {name : String} (locals : Nat) (legal : isSymbol name = true) :
    Tidy (function name locals) := by
  refine .cons legal rfl (.flatten fun piece member => ?_)
  rw [List.eq_of_mem_replicate member]
  exact tidy_pushZero

theorem tidy_call {returnSymbol name : String} (arguments : Nat)
    (landing : isSymbol returnSymbol = true) (legal : isSymbol name = true) :
    Tidy (call returnSymbol name arguments) := by
  have address : Tidy ([.symbol returnSymbol, .store .onlyD (.copy .a)] ++ pushData) :=
    .load landing tidy_pushData
  have bases : Tidy (["LCL", "ARG", "THIS", "THAT"].flatMap fun base =>
      [.symbol base, .store .onlyD (.copy .m)] ++ pushData) := by
    have symbols : ∀ base ∈ ["LCL", "ARG", "THIS", "THAT"], isSymbol base = true := by decide
    exact .flatMap fun base among => .load (symbols base among) tidy_pushData
  refine (address.append bases).append ?_
  exact .load (by decide) (.cons trivial rfl (.cons trivial rfl (.load (by decide)
    (.load (by decide) (.load (by decide) (.load legal (.cons landing rfl .nil)))))))

theorem tidy_restore {base : String} (legal : isSymbol base = true) : Tidy (restore base) :=
  .load (by decide) (.cons trivial rfl (.load legal .nil))

theorem tidy_ret : Tidy ret := by
  have noted : Tidy [.symbol "LCL", .store .onlyD (.copy .m), .symbol "R13",
      .store .onlyM (.copy .d), .number 5, .store .onlyA (.subtract .a), .store .onlyD (.copy .m),
      .symbol "R14", .store .onlyM (.copy .d)] :=
    .load (by decide) (.load (by decide) (.cons trivial rfl (.cons trivial rfl (.cons trivial rfl
      (.load (by decide) .nil)))))
  have stored : Tidy [.symbol "ARG", .store .onlyA (.copy .m), .store .onlyM (.copy .d),
      .symbol "ARG", .store .onlyD (.increment .m), .symbol "SP", .store .onlyM (.copy .d)] :=
    .load (by decide) (.cons trivial rfl (.load (by decide) (.load (by decide) .nil)))
  have restored : Tidy (["THAT", "THIS", "ARG", "LCL"].flatMap restore) := by
    have symbols : ∀ base ∈ ["THAT", "THIS", "ARG", "LCL"], isSymbol base = true := by decide
    exact .flatMap fun base among => tidy_restore (symbols base among)
  refine (((noted.append tidy_popData).append stored).append restored).append ?_
  exact .load (by decide) (.cons trivial rfl .nil)

end Code

theorem Generator.checked_ok {segment : Segment} {index : Word} {max value : Nat}
    (accepted : checked segment index max = .ok value) : value = index.toNat ∧ value ≤ max := by
  unfold checked at accepted
  split at accepted
  · cases accepted
    exact ⟨rfl, by assumption⟩
  · cases accepted

theorem Generator.Named.place {generator : Generator} {segment : Segment} {index : Word}
    {place : Code.Place} (named : generator.Named)
    (found : generator.place segment index = .ok place) : place.Named := by
  cases segment with
  | constant => cases found
  | locals | arguments | this | that =>
    obtain ⟨offset, -, result⟩ := bind_ok found
    cases result
    simp only [Code.Place.Named]
    decide
  | static =>
    cases found
    exact named.staticSymbol index
  | temp =>
    obtain ⟨offset, -, result⟩ := bind_ok found
    cases result
    exact isSymbol_append_repr _ (by decide)
  | pointer =>
    obtain ⟨offset, -, result⟩ := bind_ok found
    cases result
    simp only [Code.Place.Named]
    split <;> decide

theorem Generator.Named.code {generator : Generator} {command : Command} {code : List Statement}
    (named : generator.Named) (symbols : command.Named)
    (generated : generator.code command = .ok code) : Tidy code := by
  cases command with
  | arithmetic mnemonic =>
    simp only [Generator.code] at generated
    split at generated
    · cases generated
      exact Code.tidy_operation _ _
    · cases generated
  | push segment index =>
    cases segment with
    | constant =>
      obtain ⟨value, -, result⟩ := bind_ok generated
      cases result
      exact Code.tidy_pushConstant value
    | locals | static | arguments | this | that | pointer | temp =>
      obtain ⟨place, found, result⟩ := bind_ok generated
      cases result
      exact Code.tidy_pushFrom (named.place found)
  | pop segment index =>
    obtain ⟨place, found, result⟩ := bind_ok generated
    cases result
    exact Code.tidy_popTo (named.place found)
  | label name =>
    cases generated
    exact .cons (isSymbol_resolve named.scope symbols) rfl .nil
  | goto name =>
    cases generated
    exact Code.tidy_goto (isSymbol_resolve named.scope symbols)
  | ifGoto name =>
    cases generated
    exact Code.tidy_ifGoto (isSymbol_resolve named.scope symbols)
  | function name locals =>
    cases generated
    exact Code.tidy_function _ symbols
  | call name arguments =>
    obtain ⟨count, -, result⟩ := bind_ok generated
    cases result
    exact Code.tidy_call count named.returnSymbol symbols
  | ret =>
    cases generated
    exact Code.tidy_ret

theorem Site.Named.tidy {site : Site} (named : site.Named) : Tidy site.code := by
  cases site with
  | setStack => exact Code.tidy_setStack
  | loop label => exact Code.tidy_loop named
  | compiled generator command =>
    simp only [Site.code]
    split
    · exact named.1.code named.2 ‹_›
    · exact .nil

theorem tidy_codeOf {sites : List Site} (named : ∀ site ∈ sites, site.Named) :
    Tidy (codeOf sites) := .flatMap fun site inside => (named site inside).tidy

theorem newline_spell {keyword : Command.Keyword} {arguments : List String}
    (plain : ∀ argument ∈ arguments, '\n' ∉ argument.toList) :
    '\n' ∉ (Command.spell keyword arguments).toList := by
  have word : '\n' ∉ keyword.text.toList := by
    cases keyword <;> decide
  have joined : ∀ (first : String) (rest : List String), '\n' ∉ first.toList →
      (∀ argument ∈ rest, '\n' ∉ argument.toList) →
      '\n' ∉ (" ".intercalate (first :: rest)).toList := by
    intro first rest head tail
    induction rest generalizing first with
    | nil => simpa using head
    | cons second rest ih =>
      have later := ih second (tail second List.mem_cons_self)
        fun argument member => tail argument (List.mem_cons_of_mem _ member)
      rw [String.intercalate_cons_cons, String.toList_append, String.toList_append]
      simp only [List.mem_append, not_or]
      exact ⟨⟨head, by decide⟩, later⟩
  exact joined _ _ word plain

theorem newline_symbol {name : String} (symbol : isSymbol name = true) : '\n' ∉ name.toList :=
  fun newline => Text.isPlain_ne_newline (isPlain_of_isSymbol symbol _ newline) rfl

theorem newline_segment (segment : Segment) : '\n' ∉ segment.name.toList := by
  cases segment <;> decide

theorem newline_mnemonic (operation : Operation) : '\n' ∉ operation.mnemonic.toList := by
  cases operation <;> decide

theorem newline_text {generator : Generator} {command : Command} (symbols : command.Named)
    (accepted : (Site.compiled generator command).Accepted) : '\n' ∉ command.text.toList := by
  cases command with
  | arithmetic mnemonic =>
    obtain ⟨code, generated⟩ := accepted
    simp only [Generator.code] at generated
    split at generated
    · rename_i operation found
      rw [Command.text, ← Operation.mnemonic_of_ofMnemonic? found]
      exact newline_mnemonic operation
    · cases generated
  | push segment index | pop segment index =>
    refine newline_spell fun argument member => ?_
    simp only [List.mem_cons, List.not_mem_nil, or_false] at member
    rcases member with rfl | rfl
    · exact newline_segment segment
    · exact not_mem_repr (by decide) _
  | label name | goto name | ifGoto name =>
    refine newline_spell fun argument member => ?_
    rw [List.mem_singleton.mp member]
    exact newline_symbol symbols
  | function name count | call name count =>
    refine newline_spell fun argument member => ?_
    simp only [List.mem_cons, List.not_mem_nil, or_false] at member
    rcases member with rfl | rfl
    · exact newline_symbol symbols
    · exact not_mem_repr (by decide) _
  | ret => exact newline_spell fun _ member => absurd member List.not_mem_nil

namespace Listed

variable {bootstrap : Bool} {modules : List Module} {text : String}

theorem tidy (listed : Listed bootstrap modules text) : Tidy (codeOf (listing bootstrap modules)) :=
  tidy_codeOf listed.named

theorem blocks_legal (listed : Listed bootstrap modules text) :
    ∀ block ∈ blocks bootstrap modules, block.Legal := by
  have code : ∀ block ∈ blocks bootstrap modules, ∀ statement ∈ block.code, statement.Legal := by
    intro block member statement inside
    apply listed.tidy.legal
    rw [← code_blocks]
    exact List.mem_flatMap.mpr ⟨block, member, inside⟩
  intro block member
  refine ⟨?_, code block member⟩
  rcases List.mem_append.mp member with member | last
  · rcases List.mem_append.mp member with first | inside
    · cases bootstrap with
      | false => simp at first
      | true =>
        simp only [if_true, List.mem_cons, List.not_mem_nil, or_false] at first
        rcases first with rfl | rfl <;> decide
    · obtain ⟨site, among, rfl⟩ := List.mem_map.mp inside
      have whole : site ∈ listing bootstrap modules :=
        List.mem_append_left _ (List.mem_append_right _ among)
      cases site with
      | setStack => decide
      | loop label => simp only [Site.block]; decide
      | compiled generator command =>
        exact newline_text (listed.named _ whole).2 (listed.accepted _ whole)
  · rw [List.mem_singleton.mp last]
    decide

theorem blocks_readable (listed : Listed bootstrap modules text) :
    ∀ block ∈ blocks bootstrap modules, block.Readable :=
  fun block member => (listed.blocks_legal block member).readable

/-- The output of a run is read back as the statements of its listing. -/
theorem ofSource (listed : Listed bootstrap modules text) :
    Statement.ofSource text = codeOf (listing bootstrap modules) := by
  rw [listed.text_eq, ofSource_blocks _ listed.blocks_readable, code_blocks]

/-- An output that fits into the instruction memory loads. -/
theorem loads (listed : Listed bootstrap modules text)
    (fits : size (Statement.ofSource text) ≤ maxConstant) :
    ∃ program, Program.load text = .ok program := by
  apply assemble_succeeds fits
  have sparse := listed.tidy.sparse
  rw [← listed.ofSource] at sparse
  simp only [maxConstant, firstVariable] at fits ⊢
  omega

end Listed
end HackStack
