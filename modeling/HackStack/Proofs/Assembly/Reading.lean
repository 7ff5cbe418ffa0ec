import HackStack.Compiler.Generator
import Mathlib.Data.List.TakeWhile

/-! Written code is read back: the statements of a text made of blocks are the statements of the
blocks, in order. Headings are comments and leave no statement. -/
namespace HackStack.Text

/-- Neither a blank nor a slash: no reading rule looks at such a character. -/
def isPlain (c : Char) : Bool := !isBlank c && c != '/'

theorem isPlain_ne_newline {c : Char} (plain : isPlain c = true) : c ≠ '\n' := by
  rintro rfl
  revert plain
  decide

theorem cutComment_of_plain {line : List Char} (plain : ∀ c ∈ line, isPlain c = true) :
    cutComment line = line := by
  induction line with
  | nil => rfl
  | cons c rest ih =>
    have slash : c ≠ '/' := by
      have first := plain c List.mem_cons_self
      simp only [isPlain, Bool.and_eq_true, bne_iff_ne] at first
      exact first.2
    rw [cutComment_cons (Or.inl slash), ih fun d member => plain d (List.mem_cons_of_mem _ member)]

theorem dropWhile_isBlank_of_plain {line : List Char} (plain : ∀ c ∈ line, isPlain c = true) :
    line.dropWhile isBlank = line := by
  cases line with
  | nil => rfl
  | cons c rest =>
    have first := plain c List.mem_cons_self
    simp only [isPlain, Bool.and_eq_true, Bool.not_eq_true'] at first
    simp [first.1]

theorem code_of_plain {line : List Char} (plain : ∀ c ∈ line, isPlain c = true) :
    code line = line := by
  have reversed : ∀ c ∈ line.reverse, isPlain c = true := fun c member =>
    plain c (List.mem_reverse.mp member)
  rw [code, cutComment_of_plain plain, trim, dropWhile_isBlank_of_plain plain,
    dropWhile_isBlank_of_plain reversed, List.reverse_reverse]

theorem dropReturn_of_plain {line : List Char} (plain : ∀ c ∈ line, isPlain c = true) :
    dropReturn line = line := by
  unfold dropReturn
  split
  · rename_i last
    have blank : isPlain '\r' = false := by decide
    have plain := plain '\r' (List.mem_of_getLast? last)
    rw [blank] at plain
    contradiction
  · rfl

theorem code_dropReturn_comment (rest : List Char) :
    code (dropReturn ('/' :: '/' :: rest)) = [] := by
  unfold dropReturn
  split
  · rename_i last
    cases rest with
    | nil => simp at last
    | cons c rest => rfl
  · rfl

theorem lines_terminated (pieces : List (List Char)) (whole : ∀ piece ∈ pieces, '\n' ∉ piece) :
    lines (pieces.flatMap (· ++ ['\n'])) = pieces.map dropReturn := by
  have split : (pieces.flatMap (· ++ ['\n'])).splitOn '\n' = pieces ++ [[]] := by
    induction pieces with
    | nil => rfl
    | cons piece rest ih =>
      have tail := ih fun other member => whole other (List.mem_cons_of_mem _ member)
      rw [List.flatMap_cons, List.append_assoc, List.singleton_append,
        List.splitOn_append_cons_self_of_not_mem (whole piece List.mem_cons_self), tail,
        List.cons_append]
  simp [lines, split]

theorem lines_append (front back : List Char) :
    lines (front ++ '\n' :: back) = lines (front ++ ['\n']) ++ lines back := by
  have pieces : back.splitOn '\n' ≠ [] := List.splitOnP_ne_nil _ _
  unfold lines
  rw [List.splitOn_append_cons_self, List.splitOn_append_cons_self]
  simp [List.dropLast_append_of_ne_nil pieces, List.getLast?_eq_some_getLast pieces,
    List.getLast?_append]

theorem map_fst_codeLines (text : List Char) :
    (codeLines text).map Prod.fst = ((lines text).map code).filter (· ≠ []) := by
  have numbered : ∀ (rows : List (List Char)) (start : Nat),
      ((rows.zipIdx start).filter fun entry => entry.1 ≠ []).map Prod.fst =
        rows.filter (· ≠ []) := by
    intro rows
    induction rows with
    | nil => intro start; rfl
    | cons row rest ih =>
      intro start
      by_cases empty : row = []
      · simpa [List.zipIdx_cons, empty] using ih (start + 1)
      · simpa [List.zipIdx_cons, empty] using ih (start + 1)
  exact numbered _ 1

end HackStack.Text

namespace HackStack.Assembly
open Text

theorem isPlain_of_printing {c : Char} (low : 33 ≤ c.toNat) (high : c.toNat ≤ 126)
    (slash : c ≠ '/') : isPlain c = true := by
  have blank : isBlank c = false := by
    simp [isBlank, blankRanges]
    omega
  simp [isPlain, blank, slash]

theorem isPlain_of_isSymbolChar {c : Char} (symbolic : isSymbolChar c = true) :
    isPlain c = true := by
  have letters : c.isAlpha =
      (decide (c.val ≥ 65 ∧ c.val ≤ 90) || c.val ≥ 97 && c.val ≤ 122) := rfl
  simp only [isSymbolChar, Char.isAlphanum, letters, Char.isDigit, Bool.or_eq_true,
    Bool.and_eq_true, decide_eq_true_eq, beq_iff_eq, ge_iff_le,
    UInt32.le_iff_toNat_le] at symbolic
  change ((((((65 ≤ c.toNat ∧ c.toNat ≤ 90) ∨ (97 ≤ c.toNat ∧ c.toNat ≤ 122)) ∨
    (48 ≤ c.toNat ∧ c.toNat ≤ 57)) ∨ c = '_') ∨ c = '.') ∨ c = '$') ∨ c = ':' at symbolic
  have ranged : ∀ low high, low ≤ c.toNat ∧ c.toNat ≤ high → 48 ≤ low → high ≤ 126 →
      isPlain c = true := by
    intro low high bounds above below
    refine isPlain_of_printing (by omega) (by omega) ?_
    rintro rfl
    have small : '/'.toNat = 47 := rfl
    omega
  rcases symbolic with (((((letter | letter) | digit) | rfl) | rfl) | rfl) | rfl
  · exact ranged 65 90 letter (by decide) (by decide)
  · exact ranged 97 122 letter (by decide) (by decide)
  · exact ranged 48 57 digit (by decide) (by decide)
  all_goals decide

theorem isSymbolChar_of_isSymbol {name : String} (symbol : isSymbol name = true) :
    ∀ c ∈ name.toList, isSymbolChar c = true := by
  intro c member
  unfold isSymbol at symbol
  split at symbol
  · contradiction
  · rename_i first rest chars
    rw [Bool.and_eq_true] at symbol
    rw [chars] at member
    exact List.all_eq_true.mp symbol.2 c member

theorem isPlain_of_isSymbol {name : String} (symbol : isSymbol name = true) :
    ∀ c ∈ name.toList, isPlain c = true := fun c member =>
  isPlain_of_isSymbolChar (isSymbolChar_of_isSymbol symbol c member)

/-- A symbol does not start with a digit. -/
theorem natural?_of_isSymbol {name : String} (symbol : isSymbol name = true) :
    Decimal.natural? name.toList = none := by
  unfold isSymbol at symbol
  split at symbol
  · contradiction
  · rename_i first rest chars
    simp only [Bool.and_eq_true, Bool.not_eq_true'] at symbol
    simp [chars, Decimal.natural?, symbol.1]

/-- A symbol is no numeral: it starts with neither a digit nor a sign. -/
theorem signed?_of_isSymbol {name : String} (symbol : isSymbol name = true) :
    Decimal.signed? name.toList = none := by
  have unsigned : ∀ sign : Char, isSymbolChar sign = false → sign ∉ name.toList := by
    intro sign other member
    rw [isSymbolChar_of_isSymbol symbol sign member] at other
    cases other
  unfold Decimal.signed?
  split
  · rename_i chars
    exact absurd (chars ▸ List.mem_cons_self) (unsigned '-' (by decide))
  · rename_i chars
    exact absurd (chars ▸ List.mem_cons_self) (unsigned '+' (by decide))
  · rw [natural?_of_isSymbol symbol]
    rfl

namespace Statement

/-- What the generator writes: symbols are symbols, and every field is in its table. -/
def Legal : Statement → Prop
  | .label name => isSymbol name = true
  | .unclosed _ => False
  | .address (.number _) => True
  | .address (.symbol name) => isSymbol name = true
  | .compute _ (.known _) (.known _) => True
  | .compute .. => False

/-- A plain character that no reading rule for statements looks for. -/
def isField (c : Char) : Bool := isPlain c && !(['(', '@', '=', ';'].contains c)

theorem computation_isField (computation : Computation) :
    ∀ c ∈ computation.text.toList, isField c = true := by
  apply List.all_eq_true.mp
  rcases computation with _ | _ | _ | r | r | r | r | r | s | s | s | s | s
  all_goals try cases r
  all_goals try cases s
  all_goals decide

theorem destination_isField (destination : Destination) :
    ∀ c ∈ destination.text.toList, isField c = true := by
  apply List.all_eq_true.mp
  obtain ⟨a, d, m⟩ := destination
  cases a <;> cases d <;> cases m <;> decide

theorem jump_isPlain (jump : Jump) : ∀ c ∈ jump.text.toList, isPlain c = true := by
  apply List.all_eq_true.mp
  cases jump <;> decide

theorem isField_iff {c : Char} :
    isField c = true ↔ isPlain c = true ∧ c ≠ '(' ∧ c ≠ '@' ∧ c ≠ '=' ∧ c ≠ ';' := by
  simp [isField]

def assignment (destination : Destination) (computation : Computation) : List Char :=
  (if destination.text = "" then [] else destination.text.toList ++ ['=']) ++
    computation.text.toList

theorem toList_text_compute (destination : Destination) (computation : Computation)
    (jump : Jump) :
    (Statement.compute destination (.known computation) (.known jump)).text.toList =
      assignment destination computation ++
        if jump.text = "" then [] else ';' :: jump.text.toList := by
  by_cases target : destination.text = "" <;> by_cases condition : jump.text = "" <;>
    simp [Statement.text, Field.text, assignment, target, condition]

theorem assignment_char (destination : Destination) (computation : Computation) :
    ∀ c ∈ assignment destination computation,
      isPlain c = true ∧ c ≠ '(' ∧ c ≠ '@' ∧ c ≠ ';' := by
  intro c member
  unfold assignment at member
  rcases List.mem_append.mp member with target | value
  · split at target
    · contradiction
    · rcases List.mem_append.mp target with letter | mark
      · obtain ⟨plain, left, at_, -, semicolon⟩ :=
          isField_iff.mp (destination_isField destination c letter)
        exact ⟨plain, left, at_, semicolon⟩
      · rw [List.mem_singleton] at mark
        subst c
        decide
  · obtain ⟨plain, left, at_, -, semicolon⟩ :=
      isField_iff.mp (computation_isField computation c value)
    exact ⟨plain, left, at_, semicolon⟩

theorem split_semicolon (destination : Destination) (computation : Computation) (jump : Jump) :
    let text := (Statement.compute destination (.known computation) (.known jump)).text.toList
    text.takeWhile (· ≠ ';') = assignment destination computation ∧
      (text.dropWhile (· ≠ ';')).drop 1 = jump.text.toList := by
  have kept : ∀ c ∈ assignment destination computation, decide (c ≠ ';') = true := fun c member =>
    decide_eq_true (assignment_char destination computation c member).2.2.2
  rw [toList_text_compute]
  by_cases condition : jump.text = ""
  · simp only [condition, if_true, List.append_nil]
    rw [List.takeWhile_eq_self_iff.mpr kept, List.dropWhile_eq_nil_iff.mpr kept]
    exact ⟨rfl, rfl⟩
  · simp only [condition, if_false]
    rw [List.takeWhile_append_of_pos kept, List.dropWhile_append_of_pos kept]
    simp

theorem readComputing_text (destination : Destination) (computation : Computation)
    (jump : Jump) :
    readComputing (Statement.compute destination (.known computation) (.known jump)).text.toList =
      .compute destination (.known computation) (.known jump) := by
  obtain ⟨before, after⟩ := split_semicolon destination computation jump
  have value : ∀ c ∈ computation.text.toList, decide (c ≠ '=') = true := fun c member =>
    decide_eq_true (isField_iff.mp (computation_isField computation c member)).2.2.2.1
  have target : ∀ c ∈ destination.text.toList, decide (c ≠ '=') = true := fun c member =>
    decide_eq_true (isField_iff.mp (destination_isField destination c member)).2.2.2.1
  unfold readComputing
  simp only [before, after]
  by_cases none : destination.text = ""
  · have empty : Destination.ofText [] = destination := by
      rw [← Destination.ofText_text destination, none]
      rfl
    have unmarked : assignment destination computation = computation.text.toList := by
      simp [assignment, none]
    rw [unmarked, List.dropWhile_eq_nil_iff.mpr value]
    simp [empty, Field.ofText]
  · have marked : assignment destination computation =
        destination.text.toList ++ '=' :: computation.text.toList := by
      simp [assignment, none]
    rw [marked, List.dropWhile_append_of_pos target, List.takeWhile_append_of_pos target]
    simp [Field.ofText]

theorem ofText_of_head {text : List Char} (left : text.head? ≠ some '(')
    (mark : text.head? ≠ some '@') : ofText text = readComputing text := by
  unfold ofText
  split
  · exact absurd rfl left
  · exact absurd rfl mark
  · rfl

theorem assignment_ne_nil (destination : Destination) (computation : Computation) :
    assignment destination computation ≠ [] := by
  have value : computation.text.toList ≠ [] := by
    rcases computation with _ | _ | _ | r | r | r | r | r | s | s | s | s | s
    all_goals try cases r
    all_goals try cases s
    all_goals decide
  simp [assignment, value]

theorem ofText_label (name : String) : ofText (Statement.label name).text.toList = .label name := by
  have chars : (Statement.label name).text.toList = '(' :: (name.toList ++ [')']) := by
    simp [Statement.text]
  rw [chars, ofText, if_pos List.getLast?_concat]
  simp

/-- A legal statement is read back from its text. -/
theorem ofText_text {statement : Statement} (legal : statement.Legal) :
    ofText statement.text.toList = statement := by
  match statement with
  | .label name => exact ofText_label name
  | .address (.number value) =>
    have chars : (Statement.address (.number value)).text.toList =
        '@' :: (Decimal.signedText value).toList := by
      simp [Statement.text]
    rw [chars, ofText, readOperand, Decimal.signed?_signedText]
  | .address (.symbol name) =>
    have chars : (Statement.address (.symbol name)).text.toList = '@' :: name.toList := by
      simp [Statement.text]
    rw [chars, ofText, readOperand, signed?_of_isSymbol legal]
    simp
  | .compute destination (.known computation) (.known jump) =>
    have head : ∀ c, (Statement.compute destination (.known computation)
        (.known jump)).text.toList.head? = some c → c ≠ '(' ∧ c ≠ '@' := by
      intro c first
      rw [toList_text_compute, List.head?_append,
        List.head?_eq_some_head (assignment_ne_nil destination computation)] at first
      obtain ⟨-, left, mark, -⟩ := assignment_char destination computation c
        (Option.some.inj first ▸ List.head_mem _)
      exact ⟨left, mark⟩
    rw [ofText_of_head (fun first => (head _ first).1 rfl) (fun first => (head _ first).2 rfl),
      readComputing_text]

theorem signedText_isPlain (value : Word) :
    ∀ c ∈ (Decimal.signedText value).toList, isPlain c = true := by
  have digits : ∀ n : Nat, ∀ c ∈ n.repr.toList, isPlain c = true := by
    intro n c member
    have digit : c.isDigit = true := by
      apply Nat.isDigit_of_mem_toDigits (b := 10) (by decide) (by decide)
      simpa using member
    apply isPlain_of_isSymbolChar
    simp [isSymbolChar, Char.isAlphanum, digit]
  intro c member
  unfold Decimal.signedText at member
  split at member
  · rw [String.toList_append] at member
    rcases List.mem_append.mp member with sign | digit
    · have minus : c = '-' := by simpa using sign
      subst c
      decide
    · exact digits _ c digit
  · exact digits _ c member

theorem text_isPlain {statement : Statement} (legal : statement.Legal) :
    ∀ c ∈ statement.text.toList, isPlain c = true := by
  intro c member
  match statement with
  | .label name =>
    simp only [Statement.text, String.toList_append, List.mem_append] at member
    rcases member with (left | name) | right
    · have left : c = '(' := by simpa using left
      subst c
      decide
    · exact isPlain_of_isSymbol legal c name
    · have right : c = ')' := by simpa using right
      subst c
      decide
  | .address (.number value) =>
    simp only [Statement.text, String.toList_append, List.mem_append] at member
    rcases member with mark | digits
    · have mark : c = '@' := by simpa using mark
      subst c
      decide
    · exact signedText_isPlain value c digits
  | .address (.symbol name) =>
    simp only [Statement.text, String.toList_append, List.mem_append] at member
    rcases member with mark | name
    · have mark : c = '@' := by simpa using mark
      subst c
      decide
    · exact isPlain_of_isSymbol legal c name
  | .compute destination (.known computation) (.known jump) =>
    rw [toList_text_compute] at member
    rcases List.mem_append.mp member with assigned | condition
    · exact (assignment_char destination computation c assigned).1
    · split at condition
      · contradiction
      · rcases List.mem_cons.mp condition with rfl | letter
        · decide
        · exact jump_isPlain jump c letter

theorem text_ne_nil {statement : Statement} (legal : statement.Legal) :
    statement.text.toList ≠ [] := by
  match statement with
  | .label name => simp [Statement.text]
  | .address (.number value) => simp [Statement.text]
  | .address (.symbol name) => simp [Statement.text]
  | .compute destination (.known computation) (.known jump) =>
    rw [toList_text_compute]
    simp [assignment_ne_nil]

/-- The text of the statement is one line, which is read back as the statement. -/
structure Readable (statement : Statement) : Prop where
  whole : '\n' ∉ statement.text.toList
  kept : Text.code (dropReturn statement.text.toList) = statement.text.toList
  full : statement.text.toList ≠ []
  back : ofText statement.text.toList = statement

theorem Legal.readable {statement : Statement} (legal : statement.Legal) :
    statement.Readable := by
  have plain := text_isPlain legal
  refine ⟨fun newline => isPlain_ne_newline (plain _ newline) rfl, ?_, text_ne_nil legal,
    ofText_text legal⟩
  rw [dropReturn_of_plain plain, code_of_plain plain]

theorem ofSource_eq (source : String) :
    ofSource source = (((lines source.toList).map Text.code).filter (· ≠ [])).map ofText := by
  rw [← map_fst_codeLines, List.map_map]
  rfl

/-- What follows whole lines is read on its own. -/
theorem ofSource_append {front : String} (back : String)
    (whole : front = "" ∨ front.toList.getLast? = some '\n') :
    ofSource (front ++ back) = ofSource front ++ ofSource back := by
  rcases whole with rfl | newline
  · rw [String.empty_append]
    rfl
  · obtain ⟨start, ends⟩ := List.getLast?_eq_some_iff.mp newline
    have split : lines (front ++ back).toList = lines front.toList ++ lines back.toList := by
      rw [String.toList_append, ends, List.append_assoc, List.singleton_append, lines_append]
    rw [ofSource_eq, ofSource_eq, ofSource_eq, split]
    simp only [List.map_append, List.filter_append]

end Statement
end HackStack.Assembly

namespace HackStack
open Assembly Text

structure Block.Legal (block : Block) : Prop where
  heading : '\n' ∉ block.heading.toList
  code : ∀ statement ∈ block.code, statement.Legal

structure Block.Readable (block : Block) : Prop where
  heading : '\n' ∉ block.heading.toList
  code : ∀ statement ∈ block.code, statement.Readable

theorem Block.Legal.readable {block : Block} (legal : block.Legal) : block.Readable :=
  ⟨legal.heading, fun statement member => (legal.code statement member).readable⟩

def Block.text (block : Block) : String := String.join (block.lines.map (· ++ "\n"))

theorem Block.code_lines {block : Block} (readable : block.Readable) :
    (block.lines.map (Text.code ∘ dropReturn ∘ String.toList)).filter (· ≠ []) =
      block.code.map fun statement => statement.text.toList := by
  have code : ∀ statements : List Statement, (∀ statement ∈ statements, statement.Readable) →
      (statements.map fun statement => Text.code (dropReturn statement.text.toList)).filter
        (· ≠ []) = statements.map fun statement => statement.text.toList := by
    intro statements readable
    induction statements with
    | nil => rfl
    | cons statement rest ih =>
      have first := readable statement List.mem_cons_self
      rw [List.map_cons, first.kept, List.filter_cons_of_pos (by simpa using first.full),
        List.map_cons, ih fun other member => readable other (List.mem_cons_of_mem _ member)]
  have heading : ("// " ++ block.heading).toList = '/' :: '/' :: ' ' :: block.heading.toList := by
    simp
  simp only [Block.lines, List.map_cons, List.map_map, Function.comp_apply]
  rw [heading, code_dropReturn_comment, List.filter_cons_of_neg (by simp)]
  exact code block.code readable.code

theorem Block.newline_lines {block : Block} (readable : block.Readable) :
    ∀ line ∈ block.lines, '\n' ∉ line.toList := by
  intro line member newline
  rcases List.mem_cons.mp member with rfl | member
  · simp only [String.toList_append, List.mem_append] at newline
    rcases newline with slashes | heading
    · exact absurd slashes (by decide)
    · exact readable.heading heading
  · obtain ⟨statement, inside, rfl⟩ := List.mem_map.mp member
    exact (readable.code statement inside).whole newline

theorem lines_blocks (blocks : List Block) (readable : ∀ block ∈ blocks, block.Readable) :
    lines (String.join (blocks.map Block.text)).toList =
      ((blocks.flatMap Block.lines).map String.toList).map dropReturn := by
  have chars : (String.join (blocks.map Block.text)).toList =
      ((blocks.flatMap Block.lines).map String.toList).flatMap (· ++ ['\n']) := by
    simp [String.toList_join, Block.text, List.flatMap_map, List.map_flatMap, List.flatMap_assoc]
  have whole : ∀ line ∈ (blocks.flatMap Block.lines).map String.toList, '\n' ∉ line := by
    intro line member
    obtain ⟨text, inside, rfl⟩ := List.mem_map.mp member
    obtain ⟨block, among, inside⟩ := List.mem_flatMap.mp inside
    exact Block.newline_lines (readable block among) text inside
  rw [chars, lines_terminated _ whole]

/-- The text of blocks is read back as their statements, in order. -/
theorem ofSource_blocks (blocks : List Block) (readable : ∀ block ∈ blocks, block.Readable) :
    Statement.ofSource (String.join (blocks.map Block.text)) = blocks.flatMap Block.code := by
  rw [Statement.ofSource_eq, lines_blocks blocks readable]
  induction blocks with
  | nil => rfl
  | cons block rest ih =>
    have first := readable block List.mem_cons_self
    have tail := ih fun other member => readable other (List.mem_cons_of_mem _ member)
    have read : (block.code.map fun statement => statement.text.toList).map Statement.ofText =
        block.code := by
      rw [List.map_map]
      exact (List.map_congr_left fun statement member =>
        (first.code statement member).back).trans (List.map_id _)
    simp only [List.map_map] at tail
    simp only [List.map_map, List.flatMap_cons, List.map_append, List.filter_append]
    rw [tail, Block.code_lines first, read]

theorem Block.getLast?_text (block : Block) : block.text.toList.getLast? = some '\n' := by
  have lines : block.lines ≠ [] := List.cons_ne_nil _ _
  obtain ⟨front, last, whole⟩ := List.eq_nil_or_concat block.lines |>.resolve_left lines
  simp [Block.text, whole, String.toList_join]

theorem Block.Readable.ofSource_text {block : Block} (readable : block.Readable) :
    Statement.ofSource block.text = block.code := by
  have read := ofSource_blocks [block] fun other member => by
    rw [List.mem_singleton.mp member]
    exact readable
  simpa [String.join_cons] using read

/-- In any text, a block that starts on a new line is read as its statements. -/
theorem ofSource_around {block : Block} (readable : block.Readable) {front : String} (back : String)
    (whole : front = "" ∨ front.toList.getLast? = some '\n') :
    Statement.ofSource (front ++ block.text ++ back) =
      Statement.ofSource front ++ block.code ++ Statement.ofSource back := by
  rw [String.append_assoc, Statement.ofSource_append _ whole,
    Statement.ofSource_append _ (.inr block.getLast?_text), readable.ofSource_text,
    List.append_assoc]

end HackStack
