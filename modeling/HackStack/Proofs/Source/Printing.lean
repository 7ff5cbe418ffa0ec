import HackStack.Proofs.Compiler.Legality
import HackStack.Proofs.Source.Grammar

/-! Printed commands are read back. The text of a command is one line of code whose words denote
the command, so that commands printed one to a line are what the reader makes of the lines. -/
namespace HackStack
open Text Source Assembly

structure IsMnemonic (word : String) : Prop where
  line : IsCodeLine word.toList
  joined : ∀ c ∈ word.toList, c ≠ ' ' ∧ c ≠ '\t'
  other : word ∉ keywords

/-- The names of the command are symbols, and a mnemonic is one. -/
def Command.Printable : Command → Prop
  | .arithmetic mnemonic => IsMnemonic mnemonic
  | command => command.Named

def Source.ofCommands (commands : List Command) : String :=
  "\n".intercalate (commands.map Command.text)

theorem madeOf_intercalate {texts : List String} (each : ∀ text ∈ texts, IsCodeLine text.toList) :
    MadeOf ("\n".intercalate texts).toList (texts.map String.toList) := by
  induction texts with
  | nil => exact .nil
  | cons first rest ih =>
    have line := each first List.mem_cons_self
    have later := ih fun text member => each text (List.mem_cons_of_mem _ member)
    cases rest with
    | nil =>
      rw [String.intercalate_singleton]
      exact .last line.whole line.nonempty
    | cons second others =>
      rw [String.intercalate_cons_cons, String.toList_append, String.toList_append,
        List.append_assoc]
      refine .newline line.whole ?_ later
      intro final
      have blank := line.bare.last _ final
      revert blank
      decide

structure IsPlainWord (word : String) : Prop where
  nonempty : word.toList ≠ []
  plain : ∀ c ∈ word.toList, isPlain c = true

theorem not_isGap_of_isPlain {c : Char} (plain : isPlain c = true) : isGap c = false := by
  by_contra gap
  rw [Bool.not_eq_false] at gap
  simp [isPlain, isBlank_of_isGap gap] at plain

theorem IsPlainWord.isWord {word : String} (plain : IsPlainWord word) : IsWord word.toList := by
  refine ⟨plain.nonempty, ?_⟩
  intro c member
  exact not_isGap_of_isPlain (plain.plain c member)

theorem words_intercalate {first : String} {rest : List String}
    (each : ∀ word ∈ first :: rest, IsPlainWord word) :
    Words (" ".intercalate (first :: rest)).toList (first :: rest) := by
  induction rest generalizing first with
  | nil =>
    have word := Words.last (each first List.mem_cons_self).isWord
    rwa [String.ofList_toList] at word
  | cons second rest ih =>
    have later := ih fun word member => each word (List.mem_cons_of_mem _ member)
    have gap : ∀ c ∈ [' '], isGap c = true := by simp [isGap]
    have word := Words.next (each first List.mem_cons_self).isWord (List.cons_ne_nil _ _) gap later
    rw [String.ofList_toList] at word
    rw [String.intercalate_cons_cons, String.toList_append, String.toList_append,
      List.append_assoc]
    exact word

namespace Source.Words

variable {line : List Char} {words : List String}

theorem chars (divided : Words line words) (each : ∀ word ∈ words, IsPlainWord word) :
    ∀ c ∈ line, isPlain c = true ∨ isGap c = true := by
  induction divided with
  | last word =>
    have plain := (each _ List.mem_cons_self).plain
    rw [String.toList_ofList] at plain
    intro c member
    exact .inl (plain c member)
  | next first _ blank _ ih =>
    have plain := (each _ List.mem_cons_self).plain
    rw [String.toList_ofList] at plain
    intro c member
    rcases List.mem_append.mp member with letter | member
    · exact .inl (plain c letter)
    · rcases List.mem_append.mp member with gap | later
      · exact .inr (blank c gap)
      · exact ih (fun word member => each word (List.mem_cons_of_mem _ member)) c later

theorem ends (divided : Words line words) (each : ∀ word ∈ words, IsPlainWord word) :
    line ≠ [] ∧ Bare line := by
  have solid : ∀ c, isPlain c = true → isBlank c = false := by
    intro c plain
    simp only [isPlain, Bool.and_eq_true, Bool.not_eq_true'] at plain
    exact plain.1
  induction divided with
  | last word =>
    have plain := (each _ List.mem_cons_self).plain
    rw [String.toList_ofList] at plain
    refine ⟨word.nonempty, ?_, ?_⟩
    · intro c first
      exact solid c (plain c (List.mem_of_head? first))
    · intro c last
      exact solid c (plain c (List.mem_of_getLast? last))
  | @next word gap line words first nonempty _ _ ih =>
    have plain := (each _ List.mem_cons_self).plain
    rw [String.toList_ofList] at plain
    obtain ⟨filled, bare⟩ := ih fun word member => each word (List.mem_cons_of_mem _ member)
    have rest : gap ++ line ≠ [] := List.append_ne_nil_of_left_ne_nil nonempty line
    refine ⟨List.append_ne_nil_of_right_ne_nil word rest, ?_, ?_⟩
    · intro c head
      rw [List.head?_append_of_ne_nil _ first.nonempty] at head
      exact solid c (plain c (List.mem_of_head? head))
    · intro c last
      rw [List.getLast?_append_of_ne_nil _ rest, List.getLast?_append_of_ne_nil _ filled] at last
      exact bare.last c last

theorem isCodeLine (divided : Words line words) (each : ∀ word ∈ words, IsPlainWord word) :
    IsCodeLine line := by
  have chars := divided.chars each
  obtain ⟨nonempty, bare⟩ := divided.ends each
  refine ⟨nonempty, ?_, ?_, bare⟩
  · intro newline
    rcases chars '\n' newline with plain | gap
    · exact isPlain_ne_newline plain rfl
    · revert gap
      decide
  · intro slashes
    rcases chars '/' (slashes.subset List.mem_cons_self) with plain | gap
    · revert plain
      decide
    · revert gap
      decide

end Source.Words

theorem isPlainWord_symbol {name : String} (symbol : isSymbol name = true) : IsPlainWord name := by
  refine ⟨(isSymbol_iff.mp symbol).nonempty, isPlain_of_isSymbol symbol⟩

theorem isPlainWord_repr (n : Nat) : IsPlainWord n.repr := by
  refine ⟨?_, ?_⟩
  · simp
  · intro c member
    exact isPlain_of_isSymbolChar (isSymbolChar_of_mem_repr member)

theorem isPlainWord_segment (segment : Segment) : IsPlainWord segment.name := by
  refine ⟨?_, List.all_eq_true.mp ?_⟩
  · cases segment <;> decide
  · cases segment <;> decide

theorem isPlainWord_keyword (keyword : Command.Keyword) : IsPlainWord keyword.text := by
  refine ⟨?_, List.all_eq_true.mp ?_⟩
  · cases keyword <;> decide
  · cases keyword <;> decide

theorem numeral_repr (value : Word) : Numeral value.toNat.repr value :=
  unsigned?_eq_some_iff.mp (Decimal.unsigned?_repr value)

structure Command.ReadFrom (line : List Char) (command : Command) : Prop where
  code : IsCodeLine line
  denoted : ∃ words, Words line words ∧ Denotes words command

theorem readFrom_spell {keyword : Command.Keyword} {arguments : List String} {command : Command}
    (plain : ∀ argument ∈ arguments, IsPlainWord argument)
    (denoted : Denotes (keyword.text :: arguments) command) :
    command.ReadFrom (Command.spell keyword arguments).toList := by
  have each : ∀ word ∈ keyword.text :: arguments, IsPlainWord word := by
    intro word member
    rcases List.mem_cons.mp member with rfl | member
    · exact isPlainWord_keyword keyword
    · exact plain word member
  have divided := words_intercalate each
  exact ⟨divided.isCodeLine each, _, divided, denoted⟩

theorem plain_pair {first second : String} (one : IsPlainWord first) (two : IsPlainWord second) :
    ∀ argument ∈ [first, second], IsPlainWord argument := by
  intro argument member
  simp only [List.mem_cons, List.not_mem_nil, or_false] at member
  rcases member with rfl | rfl
  · exact one
  · exact two

/-- The text of a command is a line that is read as the command. -/
theorem Command.Printable.readFrom {command : Command} (printable : command.Printable) :
    command.ReadFrom command.text.toList := by
  have single : ∀ {name : String}, isSymbol name = true →
      ∀ argument ∈ [name], IsPlainWord argument := by
    intro name symbol argument member
    rw [List.mem_singleton.mp member]
    exact isPlainWord_symbol symbol
  cases command with
  | arithmetic mnemonic =>
    have word : IsWord mnemonic.toList := by
      refine ⟨printable.line.nonempty, ?_⟩
      intro c member
      simpa [isGap] using printable.joined c member
    have divided := Words.last word
    rw [String.ofList_toList] at divided
    exact ⟨printable.line, _, divided, .arithmetic printable.other⟩
  | push segment index =>
    exact @readFrom_spell .push _ _ (plain_pair (isPlainWord_segment segment) (isPlainWord_repr _))
      (.push segment (numeral_repr index))
  | pop segment index =>
    exact @readFrom_spell .pop _ _ (plain_pair (isPlainWord_segment segment) (isPlainWord_repr _))
      (.pop segment (numeral_repr index))
  | label name =>
    exact @readFrom_spell .label _ _ (single printable) (.label (isSymbol_iff.mp printable))
  | goto name =>
    exact @readFrom_spell .goto _ _ (single printable) (.goto (isSymbol_iff.mp printable))
  | ifGoto name =>
    exact @readFrom_spell .ifGoto _ _ (single printable) (.ifGoto (isSymbol_iff.mp printable))
  | function name locals =>
    exact @readFrom_spell .function _ _
      (plain_pair (isPlainWord_symbol printable) (isPlainWord_repr _))
      (.function (isSymbol_iff.mp printable) (numeral_repr locals))
  | call name arguments =>
    exact @readFrom_spell .call _ _
      (plain_pair (isPlainWord_symbol printable) (isPlainWord_repr _))
      (.call (isSymbol_iff.mp printable) (numeral_repr arguments))
  | ret => exact @readFrom_spell .ret [] _ (by simp) .ret

theorem commands_ofCommands {commands : List Command}
    (printable : ∀ command ∈ commands, command.Printable) :
    Source.commands (Source.ofCommands commands) = .ok commands := by
  have each : ∀ text ∈ commands.map Command.text, IsCodeLine text.toList := by
    intro text member
    obtain ⟨command, inside, rfl⟩ := List.mem_map.mp member
    exact (printable command inside).readFrom.code
  have made : lines (Source.ofCommands commands).toList = (commands.map Command.text).map _ :=
    (madeOf_iff.mp (madeOf_intercalate each)).symm
  have rows : (codeLines (Source.ofCommands commands).toList).map Prod.fst =
      commands.map fun command => command.text.toList := by
    rw [map_fst_codeLines, made, List.map_map, List.map_map, List.filter_eq_self.mpr]
    · apply List.map_congr_left
      intro command member
      exact (printable command member).readFrom.code.code
    · intro line member
      obtain ⟨command, inside, rfl⟩ := List.mem_map.mp member
      have line := (printable command inside).readFrom.code
      simpa [line.code] using line.nonempty
  have denoted : List.Forall₂ (fun line command => ∃ words, Words line words ∧
      Denotes words command) (commands.map fun command => command.text.toList) commands := by
    rw [List.forall₂_map_left_iff, List.forall₂_same]
    intro command member
    exact (printable command member).readFrom.denoted
  rw [← rows, List.forall₂_map_left_iff] at denoted
  exact commands_ok_iff.mpr denoted

/-- What is read is printable: a mnemonic is all of its line. -/
theorem printable_of_commands {source : String} {commands : List Command}
    (read : Source.commands source = .ok commands) : ∀ command ∈ commands, command.Printable := by
  intro command member
  obtain ⟨⟨code, number⟩, inside, words, divided, denoted⟩ :=
    exists_of_forall₂ (commands_ok_iff.mp read) command member
  cases denoted with
  | @arithmetic word other =>
    have line := isCodeLine_of_mem inside
    simp only at divided line
    cases divided with
    | last whole =>
      refine ⟨by simpa using line, ?_, other⟩
      intro c letter
      rw [String.toList_ofList] at letter
      simpa [isGap] using whole.joined c letter
    | next _ _ _ rest => cases rest
  | push | pop | ret => trivial
  | label symbol | goto symbol | ifGoto symbol => exact isSymbol_iff.mpr symbol
  | function symbol | call symbol => exact isSymbol_iff.mpr symbol

/-- Reading undoes printing. Whatever commands a source is read as, their printed text is read as
the same commands; and so is the printed text of any commands whose names are symbols and whose
mnemonics are words that the reader takes as such. -/
theorem reading_undoes_printing :
    (∀ source commands, Source.commands source = .ok commands →
      Source.commands (Source.ofCommands commands) = .ok commands) ∧
    ∀ commands : List Command, (∀ command ∈ commands, command.Printable) →
      Source.commands (Source.ofCommands commands) = .ok commands := by
  constructor
  · intro source commands read
    exact commands_ofCommands (printable_of_commands read)
  · intro commands printable
    exact commands_ofCommands printable

/-- A mnemonic may hold a slash, a carriage return or a blank that does not divide words. -/
theorem reading_undoes_printing_odd :
    Source.commands "push constant 007 // seven\n\ta/b\rc \r\n" =
        .ok [.push .constant 7, .arithmetic "a/b\rc"] ∧
      Source.commands (Source.ofCommands [.push .constant 7, .arithmetic "a/b\rc"]) =
        .ok [.push .constant 7, .arithmetic "a/b\rc"] ∧
      Source.commands (Source.ofCommands [.arithmetic "a\u00a0b", .call "f" 65535]) =
        .ok [.arithmetic "a\u00a0b", .call "f" 65535] := by
  have source : Source.commands "push constant 007 // seven\n\ta/b\rc \r\n" =
      .ok [.push .constant 7, .arithmetic "a/b\rc"] := by decide +kernel
  have mnemonic : IsMnemonic "a\u00a0b" := by
    refine ⟨⟨by decide, by decide, by decide, ?_, ?_⟩, by simp, by decide⟩
    · rintro c ⟨⟩
      rfl
    · rintro c ⟨⟩
      rfl
  refine ⟨source, reading_undoes_printing.1 _ _ source, reading_undoes_printing.2 _ ?_⟩
  intro command member
  simp only [List.mem_cons, List.not_mem_nil, or_false] at member
  rcases member with rfl | rfl
  · exact mnemonic
  · exact (by decide : isSymbol "f" = true)

end HackStack
