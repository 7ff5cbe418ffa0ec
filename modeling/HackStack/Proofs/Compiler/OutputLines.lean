import HackStack.Proofs.Compiler.Legality
import HackStack.Proofs.Machine.Faults

/-! The lines of an output. Each of them is a comment or a legal line of assembly, so that an output
loads exactly if its instructions fit, and once it is loaded it never faults. -/
namespace HackStack
open Assembly Text

/-- A comment, a declaration, an address instruction with a symbol or a constant of fifteen bits, or
a computing instruction with a computation and a jump of the tables. -/
inductive LegalLine : List Char → Prop
  | comment (rest : List Char) : LegalLine ('/' :: '/' :: ' ' :: rest)
  | label (symbol : isSymbol name = true) : LegalLine ('(' :: (name.toList ++ [')']))
  | reference (symbol : isSymbol name = true) : LegalLine ('@' :: name.toList)
  | number (bound : n ≤ 32767) : LegalLine ('@' :: n.repr.toList)
  | compute (destination : Destination) (computation : Computation) (jump : Jump) :
      LegalLine ((if destination.text = "" then [] else destination.text.toList ++ ['=']) ++
        computation.text.toList ++ if jump.text = "" then [] else ';' :: jump.text.toList)

/-- Neither a comment nor a declaration. -/
def isInstructionLine : List Char → Bool
  | '/' :: '/' :: _ => false
  | '(' :: _ => false
  | _ => true

theorem isInstructionLine_cons {c : Char} {rest : List Char} (slash : c ≠ '/') (left : c ≠ '(') :
    isInstructionLine (c :: rest) = true := by
  unfold isInstructionLine
  split
  · rename_i equal
    exact absurd (List.cons.inj equal).1 slash
  · rename_i equal
    exact absurd (List.cons.inj equal).1 left
  · rfl

namespace Assembly

def Statement.number? : Statement → Option Word
  | .address (.number value) => some value
  | _ => none

def numbers (statements : List Statement) : List Word := statements.filterMap Statement.number?

end Assembly

theorem numbers_pushZeros (count : Nat) :
    numbers (List.replicate count Code.pushZero).flatten = [] := by
  rw [numbers, List.filterMap_flatten, List.map_replicate]
  exact List.flatten_replicate_nil

/-- All constants of the statements can be loaded by an address instruction. -/
def Loadable (statements : List Statement) : Prop :=
  ∀ value ∈ numbers statements, value.toNat ≤ maxConstant

theorem loadable_nil {statements : List Statement} (none : numbers statements = []) :
    Loadable statements := by
  intro value member
  rw [none] at member
  cases member

theorem loadable_singleton {statements : List Statement} {n : Nat}
    (one : numbers statements = [BitVec.ofNat 16 n]) (bound : n ≤ maxConstant) :
    Loadable statements := by
  intro value member
  rw [one] at member
  rw [List.mem_singleton.mp member, BitVec.toNat_ofNat]
  exact (Nat.mod_le _ _).trans bound

theorem Generator.loadable_place {generator : Generator} {segment : Segment} {index : Word}
    {place : Code.Place} (found : generator.place segment index = .ok place) :
    Loadable (Code.pushFrom place) ∧ Loadable (Code.popTo place) := by
  have based : ∀ {base : String} {offset : Nat}, checked segment index maxConstant = .ok offset →
      Loadable (Code.pushFrom (.based base offset)) ∧
        Loadable (Code.popTo (.based base offset)) := by
    intro base offset checked
    have bound := (checked_ok checked).2
    exact ⟨loadable_singleton rfl bound, loadable_singleton rfl bound⟩
  have direct : ∀ symbol : String,
      Loadable (Code.pushFrom (.direct symbol)) ∧ Loadable (Code.popTo (.direct symbol)) := by
    intro symbol
    exact ⟨loadable_nil rfl, loadable_nil rfl⟩
  cases segment with
  | constant => cases found
  | locals | arguments | this | that =>
    obtain ⟨offset, checked, result⟩ := bind_ok found
    cases result
    exact based checked
  | static =>
    cases found
    exact direct _
  | temp | pointer =>
    obtain ⟨offset, -, result⟩ := bind_ok found
    cases result
    exact direct _

/-- Every constant that the generator writes fits into fifteen bits. -/
theorem Generator.loadable_code {generator : Generator} {command : Command} {code : List Statement}
    (generated : generator.code command = .ok code) : Loadable code := by
  cases command with
  | arithmetic mnemonic =>
    simp only [Generator.code] at generated
    split at generated
    · rename_i operation _
      cases generated
      refine loadable_nil ?_
      cases operation <;> rfl
    · cases generated
  | push segment index =>
    cases segment with
    | constant =>
      obtain ⟨value, checked, result⟩ := bind_ok generated
      cases result
      exact loadable_singleton rfl (checked_ok checked).2
    | locals | static | arguments | this | that | pointer | temp =>
      obtain ⟨place, found, result⟩ := bind_ok generated
      cases result
      exact (loadable_place found).1
  | pop segment index =>
    obtain ⟨place, found, result⟩ := bind_ok generated
    cases result
    exact (loadable_place found).2
  | label | goto | ifGoto =>
    cases generated
    exact loadable_nil rfl
  | function name locals =>
    cases generated
    exact loadable_nil (numbers_pushZeros locals.toNat)
  | call name arguments =>
    obtain ⟨count, checked, result⟩ := bind_ok generated
    cases result
    have bound := (checked_ok checked).2
    exact @loadable_singleton _ (count + 5) rfl (by simp only [maxConstant] at bound ⊢; omega)
  | ret =>
    cases generated
    exact @loadable_singleton _ 5 rfl (by decide)

theorem Site.loadable {site : Site} (accepted : site.Accepted) : Loadable site.code := by
  cases site with
  | setStack => exact @loadable_singleton _ Code.stackBase rfl (by decide)
  | loop label => exact loadable_nil rfl
  | compiled generator command =>
    obtain ⟨code, generated⟩ := accepted
    simp only [Site.code, generated]
    exact Generator.loadable_code generated

theorem loadable_codeOf {sites : List Site} (accepted : ∀ site ∈ sites, site.Accepted) :
    Loadable (codeOf sites) := by
  intro value member
  obtain ⟨statement, inside, constant⟩ := List.mem_filterMap.mp member
  obtain ⟨site, among, inside⟩ := List.mem_flatMap.mp inside
  exact Site.loadable (accepted site among) value
    (List.mem_filterMap.mpr ⟨statement, inside, constant⟩)

theorem signedText_of_le {value : Word} (bound : value.toNat ≤ maxConstant) :
    Decimal.signedText value = value.toNat.repr := by
  have positive : value.msb = false := by
    rw [BitVec.msb_eq_decide, decide_eq_false_iff_not]
    simp only [maxConstant] at bound
    omega
  simp [Decimal.signedText, positive]

theorem Assembly.Statement.Legal.line {statement : Statement} (legal : statement.Legal)
    (loadable : Loadable [statement]) : LegalLine statement.text.toList := by
  match statement with
  | .label name =>
    have chars : (Statement.label name).text.toList = '(' :: (name.toList ++ [')']) := by
      simp [Statement.text]
    rw [chars]
    exact .label legal
  | .address (.number value) =>
    have bound : value.toNat ≤ maxConstant := loadable value List.mem_cons_self
    have chars : (Statement.address (.number value)).text.toList =
        '@' :: value.toNat.repr.toList := by
      simp [Statement.text, signedText_of_le bound]
    rw [chars]
    exact .number bound
  | .address (.symbol name) =>
    have chars : (Statement.address (.symbol name)).text.toList = '@' :: name.toList := by
      simp [Statement.text]
    rw [chars]
    exact .reference legal
  | .compute destination (.known computation) (.known jump) =>
    rw [Statement.toList_text_compute]
    exact .compute destination computation jump

/-- A legal statement is written on an instruction line exactly if it takes up an address. -/
theorem Assembly.Statement.Legal.instructionLine {statement : Statement}
    (legal : statement.Legal) :
    isInstructionLine statement.text.toList = statement.takesAddress := by
  match statement with
  | .label name =>
    have chars : (Statement.label name).text.toList = '(' :: (name.toList ++ [')']) := by
      simp [Statement.text]
    rw [chars]
    rfl
  | .address operand =>
    have chars : ∃ rest, (Statement.address operand).text.toList = '@' :: rest := by
      cases operand with
      | number value => exact ⟨(Decimal.signedText value).toList, by simp [Statement.text]⟩
      | symbol name => exact ⟨name.toList, by simp [Statement.text]⟩
    obtain ⟨rest, chars⟩ := chars
    rw [chars, isInstructionLine_cons (by decide) (by decide)]
    rfl
  | .compute destination (.known computation) (.known jump) =>
    obtain ⟨c, rest, spelled⟩ :=
      List.exists_cons_of_ne_nil (Statement.assignment_ne_nil destination computation)
    obtain ⟨plain, left, -⟩ :=
      Statement.assignment_char destination computation c (spelled ▸ List.mem_cons_self)
    have slash : c ≠ '/' := by
      rintro rfl
      revert plain
      decide
    rw [Statement.toList_text_compute, spelled, List.cons_append, isInstructionLine_cons slash left]
    rfl

/-- The heading of a block is a comment, also without a carriage return at its end. -/
theorem Block.heading_comment (block : Block) :
    ∃ rest, dropReturn ("// " ++ block.heading).toList = '/' :: '/' :: ' ' :: rest := by
  have chars : ("// " ++ block.heading).toList = '/' :: '/' :: ' ' :: block.heading.toList := by
    simp
  rw [chars, dropReturn]
  generalize block.heading.toList = heading
  split
  · rename_i last
    cases heading with
    | nil => simp at last
    | cons c rest => exact ⟨(c :: rest).dropLast, rfl⟩
  · exact ⟨heading, rfl⟩

namespace Block.Legal

variable {block : Block}

theorem dropReturn_code (legal : block.Legal) :
    (block.code.map Statement.text).map (fun line => dropReturn line.toList) =
      block.code.map fun statement => statement.text.toList := by
  rw [List.map_map]
  apply List.map_congr_left
  intro statement member
  exact dropReturn_of_plain (Statement.text_isPlain (legal.code statement member))

theorem lines (legal : block.Legal) (loadable : Loadable block.code) :
    ∀ line ∈ block.lines, LegalLine (dropReturn line.toList) := by
  intro line member
  rcases List.mem_cons.mp member with rfl | member
  · obtain ⟨rest, comment⟩ := block.heading_comment
    rw [comment]
    exact .comment rest
  · obtain ⟨statement, inside, rfl⟩ := List.mem_map.mp member
    have lawful := legal.code statement inside
    rw [dropReturn_of_plain (Statement.text_isPlain lawful)]
    refine lawful.line fun value constant => loadable value ?_
    obtain ⟨_, among, found⟩ := List.mem_filterMap.mp constant
    rw [List.mem_singleton.mp among] at found
    exact List.mem_filterMap.mpr ⟨statement, inside, found⟩

theorem count (legal : block.Legal) :
    (block.lines.map fun line => dropReturn line.toList).countP isInstructionLine =
      size block.code := by
  obtain ⟨rest, comment⟩ := block.heading_comment
  rw [Block.lines, List.map_cons, comment, legal.dropReturn_code,
    List.countP_cons_of_neg (by simp [isInstructionLine]), List.countP_map]
  apply List.countP_congr
  intro statement member
  rw [Function.comp_apply, (legal.code statement member).instructionLine]

end Block.Legal

namespace Listed

variable {bootstrap : Bool} {modules : List Module} {text : String}

theorem lines_eq (listed : Listed bootstrap modules text) :
    Text.lines text.toList = (blocks bootstrap modules).flatMap fun block =>
      block.lines.map fun line => dropReturn line.toList := by
  rw [listed.text_eq, lines_blocks _ listed.blocks_readable, List.map_map, List.map_flatMap]
  rfl

theorem loadable_block (listed : Listed bootstrap modules text) :
    ∀ block ∈ blocks bootstrap modules, Loadable block.code := by
  have loadable := loadable_codeOf listed.accepted
  rw [← code_blocks] at loadable
  intro block among value constant
  obtain ⟨statement, inside, found⟩ := List.mem_filterMap.mp constant
  apply loadable value
  exact List.mem_filterMap.mpr ⟨statement, List.mem_flatMap.mpr ⟨block, among, inside⟩, found⟩

theorem legal_lines (listed : Listed bootstrap modules text) :
    ∀ line ∈ Text.lines text.toList, LegalLine line := by
  rw [listed.lines_eq]
  intro line member
  obtain ⟨block, among, written⟩ := List.mem_flatMap.mp member
  obtain ⟨raw, inside, rfl⟩ := List.mem_map.mp written
  exact (listed.blocks_legal block among).lines (listed.loadable_block block among) raw inside

/-- As many lines are instructions as the output takes up addresses. -/
theorem count_instructionLines (listed : Listed bootstrap modules text) :
    (Text.lines text.toList).countP isInstructionLine = size (Statement.ofSource text) := by
  rw [listed.lines_eq, listed.ofSource, ← code_blocks]
  have legal := listed.blocks_legal
  generalize blocks bootstrap modules = pieces at legal
  induction pieces with
  | nil => rfl
  | cons block rest ih =>
    rw [List.flatMap_cons, List.flatMap_cons, List.countP_append, size_append,
      (legal block List.mem_cons_self).count,
      ih fun other member => legal other (List.mem_cons_of_mem _ member)]

end Listed

/-- Outputs are legal assembly. Every line of an output is a comment or a legal line; the output
fails to load exactly if more than 32767 of its lines are instructions; and once it is loaded, no
run faults, from any address, with any memory and registers, for any number of steps. -/
theorem output_legal {bootstrap : Bool} {modules : List Module} {text : String}
    (produced : Produces bootstrap modules text) :
    (∀ line ∈ Text.lines text.toList, LegalLine line) ∧
      ((∃ fault, Program.load text = .error fault) ↔
        32767 < (Text.lines text.toList).countP isInstructionLine) ∧
      ∀ program, Program.load text = .ok program →
        ∀ machine : Machine, machine.counter < 65536 →
          ∀ budget, ∃ after, Machine.run program.code budget machine = .ok after := by
  have listed := produced.listed
  refine ⟨listed.legal_lines, ?_, ?_⟩
  · rw [listed.count_instructionLines]
    constructor
    · rintro ⟨fault, failed⟩
      by_contra fits
      obtain ⟨program, loaded⟩ := listed.loads (Nat.not_lt.mp fits)
      rw [loaded] at failed
      cases failed
    · intro overflow
      cases loaded : Program.load text with
      | error fault => exact ⟨fault, rfl⟩
      | ok program => exact absurd (size_of_assemble loaded) (Nat.not_le.mpr overflow)
  · intro program loaded machine bound budget
    have legal := listed.tidy.legal
    rw [← listed.ofSource] at legal
    obtain ⟨after, ran, -⟩ := (Machine.executable_of_assemble legal loaded).run_ok budget bound
    exact ⟨after, ran⟩

/-- A call with the most arguments that are accepted, and the last address to start from. -/
theorem output_legal_last : ∃ text program,
    Produces true [⟨"M.1", [.function "f" 2, .push .constant 32767, .arithmetic "lt",
      .call "f" 32762, .ret]⟩] text ∧
      Program.load text = .ok program ∧ (∀ line ∈ Text.lines text.toList, LegalLine line) ∧
      ∃ after, Machine.run program.code 1000 { counter := 65535 } = .ok after := by
  obtain ⟨text, produced⟩ := @exists_produces true
    [("M.1", "function f 2\npush constant 32767\nlt\ncall f 32762\nreturn")]
    [⟨"M.1", [.function "f" 2, .push .constant 32767, .arithmetic "lt", .call "f" 32762, .ret]⟩]
    (by decide +kernel) (by decide +kernel)
  obtain ⟨lines, -, runs⟩ := output_legal produced
  have fits : size (Statement.ofSource text) ≤ maxConstant := by
    rw [produced.listed.ofSource]
    decide +kernel
  obtain ⟨program, loaded⟩ := produced.listed.loads fits
  exact ⟨text, program, produced, loaded, lines, runs program loaded _ (by decide) 1000⟩

end HackStack
