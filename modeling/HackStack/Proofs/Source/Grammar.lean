import HackStack.Proofs.Compiler.Output
import HackStack.Proofs.Text.Lines

/-! The grammar of command sources. A line of code is divided into words by runs of spaces and tabs,
and there is one rule for each form of command. The reader accepts exactly this grammar: one item
for each line of code, with the line's number. -/
namespace HackStack.Source
open Text Assembly

structure IsWord (word : List Char) : Prop where
  nonempty : word ≠ []
  joined : ∀ c ∈ word, isGap c = false

/-- A line is divided into words by nonempty runs of spaces and tabs. -/
inductive Words : List Char → List String → Prop
  | last (word : IsWord line) : Words line [String.ofList line]
  | next (first : IsWord word) (nonempty : gap ≠ []) (blank : ∀ c ∈ gap, isGap c = true)
      (rest : Words line words) : Words (word ++ (gap ++ line)) (String.ofList word :: words)

theorem splitOnP_gap_append {gap : List Char} (blank : ∀ c ∈ gap, isGap c = true)
    (line : List Char) :
    (gap ++ line).splitOnP isGap = List.replicate gap.length [] ++ line.splitOnP isGap := by
  induction gap with
  | nil => rfl
  | cons c rest ih =>
    have empty : ∀ d ∈ ([] : List Char), isGap d = false := by simp
    have first := List.splitOnP_append_cons_of_forall_mem empty c (blank c List.mem_cons_self)
      (rest ++ line)
    rw [List.nil_append] at first
    rw [List.cons_append, first, ih fun d member => blank d (List.mem_cons_of_mem _ member)]
    rfl

theorem words?_of_words {line : List Char} {words : List String} (divided : Words line words) :
    words? line = some words := by
  have pieces : (line.splitOnP isGap).head? ≠ some [] ∧ (line.splitOnP isGap).getLast? ≠ some [] ∧
      ((line.splitOnP isGap).filter (· ≠ [])).map String.ofList = words := by
    induction divided with
    | last word =>
      rw [List.splitOnP_eq_singleton word.joined]
      simp [word.nonempty]
    | @next word gap line words first nonempty blank _ ih =>
      obtain ⟨-, last, kept⟩ := ih
      obtain ⟨c, others, rfl⟩ := List.exists_cons_of_ne_nil nonempty
      have rest : line.splitOnP isGap ≠ [] := List.splitOnP_ne_nil _ _
      rw [List.cons_append, List.splitOnP_append_cons_of_forall_mem first.joined c
        (blank c List.mem_cons_self),
        splitOnP_gap_append fun d member => blank d (List.mem_cons_of_mem _ member)]
      refine ⟨?_, ?_, ?_⟩
      · simpa using first.nonempty
      · rw [List.getLast?_cons, List.getLast?_append_of_ne_nil _ rest,
          List.getLast?_eq_some_getLast rest] at *
        exact last
      · rw [List.filter_cons_of_pos (by simpa using first.nonempty), List.filter_append,
          List.filter_replicate]
        simpa using kept
  obtain ⟨head, last, kept⟩ := pieces
  simp only [words?]
  rw [if_neg (not_or.mpr ⟨head, last⟩), kept]

theorem Words.cons {c : Char} {line : List Char} {words : List String} (inside : isGap c = false)
    (divided : Words line words) : ∃ longer, Words (c :: line) longer := by
  have longer : ∀ {word : List Char}, IsWord word → IsWord (c :: word) := by
    intro word first
    refine ⟨List.cons_ne_nil _ _, fun d member => ?_⟩
    rcases List.mem_cons.mp member with rfl | member
    · exact inside
    · exact first.joined d member
  cases divided with
  | last word => exact ⟨_, .last (longer word)⟩
  | next first nonempty blank rest => exact ⟨_, .next (longer first) nonempty blank rest⟩

theorem exists_gap_words {line : List Char} (nonempty : line ≠ [])
    (last : ∀ c, line.getLast? = some c → isGap c = false) :
    ∃ gap rest words, line = gap ++ rest ∧ (∀ c ∈ gap, isGap c = true) ∧ Words rest words := by
  induction line with
  | nil => exact absurd rfl nonempty
  | cons c others ih =>
    by_cases single : others = []
    · subst single
      have word : IsWord [c] := by
        refine ⟨nonempty, fun d member => ?_⟩
        rw [List.mem_singleton.mp member]
        exact last c rfl
      exact ⟨[], [c], _, rfl, by simp, .last word⟩
    · have later : ∀ d, others.getLast? = some d → isGap d = false := by
        intro d ends
        apply last d
        rw [List.getLast?_cons, ends]
        rfl
      obtain ⟨gap, rest, words, rfl, blank, divided⟩ := ih single later
      cases outside : isGap c with
      | true =>
        refine ⟨c :: gap, rest, words, rfl, fun d member => ?_, divided⟩
        rcases List.mem_cons.mp member with rfl | member
        · exact outside
        · exact blank d member
      | false =>
        by_cases direct : gap = []
        · subst direct
          obtain ⟨longer, divided⟩ := divided.cons outside
          exact ⟨[], c :: rest, longer, rfl, by simp, divided⟩
        · have word : IsWord [c] := by
            refine ⟨List.cons_ne_nil _ _, fun d member => ?_⟩
            rw [List.mem_singleton.mp member]
            exact outside
          exact ⟨[], _, _, rfl, by simp, .next word direct blank divided⟩

theorem exists_words {line : List Char} (nonempty : line ≠ [])
    (head : ∀ c, line.head? = some c → isGap c = false)
    (last : ∀ c, line.getLast? = some c → isGap c = false) : ∃ words, Words line words := by
  obtain ⟨gap, rest, words, rfl, blank, divided⟩ := exists_gap_words nonempty last
  cases gap with
  | nil => exact ⟨words, divided⟩
  | cons c others =>
    have inside := head c rfl
    rw [blank c List.mem_cons_self] at inside
    cases inside

/-- The reader's words are the words of the line. -/
theorem words?_eq_some_iff {line : List Char} {words : List String} :
    words? line = some words ↔ Words line words := by
  constructor
  · intro found
    have pieces := found
    simp only [words?] at pieces
    split at pieces
    · cases pieces
    · rename_i ends
      obtain ⟨starts, ends⟩ := not_or.mp ends
      have nonempty : line ≠ [] := by
        rintro rfl
        exact starts rfl
      have head : ∀ c, line.head? = some c → isGap c = false := by
        intro c first
        obtain ⟨rest, rfl⟩ := List.head?_eq_some_iff.mp first
        by_contra gap
        rw [Bool.not_eq_false] at gap
        apply starts
        rw [← List.nil_append (c :: rest), List.splitOnP_append_cons _ _ gap]
        rfl
      have last : ∀ c, line.getLast? = some c → isGap c = false := by
        intro c final
        obtain ⟨front, rfl⟩ := List.getLast?_eq_some_iff.mp final
        by_contra gap
        rw [Bool.not_eq_false] at gap
        apply ends
        rw [List.splitOnP_append_cons _ _ gap]
        simp
      obtain ⟨others, divided⟩ := exists_words nonempty head last
      rw [words?_of_words divided] at found
      cases found
      exact divided
  · exact words?_of_words

/-- An integer: one or more ASCII digits, leading zeros allowed, of a value below `2 ^ 16`. -/
structure Numeral (word : String) (value : Word) : Prop where
  nonempty : word.toList ≠ []
  digits : ∀ c ∈ word.toList, c.isDigit = true
  value : Nat.ofDigitChars 10 word.toList 0 = value.toNat

theorem natural?_eq_some_iff {digits : List Char} {n : Nat} :
    Decimal.natural? digits = some n ↔
      digits ≠ [] ∧ (∀ c ∈ digits, c.isDigit = true) ∧ Nat.ofDigitChars 10 digits 0 = n := by
  simp only [Decimal.natural?]
  split
  · rename_i bad
    simp only [reduceCtorEq, false_iff, not_and]
    intro nonempty all
    rcases bad with empty | other
    · exact absurd empty nonempty
    · rw [List.all_eq_true.mpr all] at other
      cases other
  · rename_i good
    obtain ⟨nonempty, all⟩ := not_or.mp good
    rw [Bool.not_eq_false, List.all_eq_true] at all
    rw [Option.some.injEq]
    constructor
    · intro value
      exact ⟨nonempty, all, value⟩
    · intro spelled
      exact spelled.2.2

theorem unsigned?_eq_some_iff {word : String} {value : Word} :
    Decimal.unsigned? word.toList = some value ↔ Numeral word value := by
  constructor
  · intro read
    simp only [Decimal.unsigned?] at read
    split at read
    · rename_i n found
      obtain ⟨nonempty, digits, rfl⟩ := natural?_eq_some_iff.mp found
      split at read
      · rename_i bound
        cases read
        exact ⟨nonempty, digits, by simp [Nat.mod_eq_of_lt bound]⟩
      · cases read
    · cases read
  · rintro ⟨nonempty, digits, equal⟩
    have found := natural?_eq_some_iff.mpr ⟨nonempty, digits, equal⟩
    have bound := value.isLt
    simp [Decimal.unsigned?, found, bound]

/-- A symbol: letters, digits, `_`, `.`, `$` and `:`, at least one of them, and no digit first. -/
structure IsName (word : String) : Prop where
  nonempty : word.toList ≠ []
  letters : ∀ c ∈ word.toList, c.isAlphanum = true ∨ c ∈ ['_', '.', '$', ':']
  head : ∀ c, word.toList.head? = some c → c.isDigit = false

theorem isSymbol_iff {word : String} : isSymbol word = true ↔ IsName word := by
  have letter : ∀ c, isSymbolChar c = true ↔ c.isAlphanum = true ∨ c ∈ ['_', '.', '$', ':'] := by
    intro c
    simp [isSymbolChar, or_assoc]
  unfold isSymbol
  split
  · rename_i empty
    constructor
    · intro absurd_
      cases absurd_
    · intro name
      exact absurd empty name.nonempty
  · rename_i first rest spelled
    rw [Bool.and_eq_true, Bool.not_eq_true', List.all_eq_true]
    simp only [letter]
    constructor
    · rintro ⟨digit, letters⟩
      refine ⟨by simp [spelled], spelled ▸ letters, ?_⟩
      intro c head
      rw [spelled] at head
      cases head
      exact digit
    · intro name
      exact ⟨name.head first (by rw [spelled]; rfl), spelled ▸ name.letters⟩

def keywords : List String :=
  ["push", "pop", "label", "goto", "if-goto", "function", "call", "return"]

/-- Which words denote which command. Only an arithmetic command is a word of its own. -/
inductive Denotes : List String → Command → Prop
  | push (segment : Segment) (index : Numeral word value) :
      Denotes ["push", segment.name, word] (.push segment value)
  | pop (segment : Segment) (index : Numeral word value) :
      Denotes ["pop", segment.name, word] (.pop segment value)
  | label (symbol : IsName name) : Denotes ["label", name] (.label name)
  | goto (symbol : IsName name) : Denotes ["goto", name] (.goto name)
  | ifGoto (symbol : IsName name) : Denotes ["if-goto", name] (.ifGoto name)
  | function (symbol : IsName name) (locals : Numeral word value) :
      Denotes ["function", name, word] (.function name value)
  | call (symbol : IsName name) (count : Numeral word value) :
      Denotes ["call", name, word] (.call name value)
  | ret : Denotes ["return"] .ret
  | arithmetic (other : word ∉ keywords) : Denotes [word] (.arithmetic word)

theorem ofText?_eq_none_iff {word : String} :
    Command.Keyword.ofText? word = none ↔ word ∉ keywords := by
  have texts : keywords = Command.Keyword.all.map Command.Keyword.text := rfl
  rw [texts, Command.Keyword.ofText?, List.find?_eq_none]
  simp

section
variable {malformed : Reason → Error} {word head : String} {arguments : List String}
  {segment : Segment} {value : Word} {command : Command}

theorem readSegment_ok_iff : readSegment word = .ok segment ↔ segment.name = word := by
  unfold readSegment
  split
  · rename_i found known
    rw [Except.ok.injEq]
    constructor
    · rintro rfl
      exact Segment.name_of_ofName? known
    · rintro rfl
      rw [Segment.ofName?_name] at known
      exact (Option.some.inj known).symm
  · rename_i unknown
    simp only [reduceCtorEq, false_iff]
    rintro rfl
    rw [Segment.ofName?_name] at unknown
    cases unknown

theorem readIndex_ok_iff : readIndex malformed word = .ok value ↔ Numeral word value := by
  rw [← unsigned?_eq_some_iff]
  unfold readIndex
  split
  · rename_i found
    rw [found, Except.ok.injEq, Option.some.injEq]
  · rename_i found
    simp [found]

theorem readSymbol_ok_iff {name : String} :
    readSymbol malformed word = .ok name ↔ IsName word ∧ name = word := by
  rw [← isSymbol_iff]
  unfold readSymbol
  split
  · rename_i symbol
    simp [symbol, eq_comm]
  · rename_i other
    simp [other]

theorem denotes_of_interpret (read : interpret malformed head arguments = .ok command) :
    Denotes (head :: arguments) command := by
  unfold interpret at read
  split at read
  · rename_i keyword
    obtain ⟨segment, known, read⟩ := bind_ok read
    obtain ⟨index, number, read⟩ := bind_ok read
    cases read
    rw [← Command.Keyword.text_of_ofText? keyword, ← readSegment_ok_iff.mp known]
    exact .push segment (readIndex_ok_iff.mp number)
  · rename_i keyword
    obtain ⟨segment, known, read⟩ := bind_ok read
    obtain ⟨index, number, read⟩ := bind_ok read
    cases read
    rw [← Command.Keyword.text_of_ofText? keyword, ← readSegment_ok_iff.mp known]
    exact .pop segment (readIndex_ok_iff.mp number)
  · rename_i keyword
    obtain ⟨name, found, read⟩ := bind_ok read
    cases read
    obtain ⟨symbol, rfl⟩ := readSymbol_ok_iff.mp found
    rw [← Command.Keyword.text_of_ofText? keyword]
    exact .label symbol
  · rename_i keyword
    obtain ⟨name, found, read⟩ := bind_ok read
    cases read
    obtain ⟨symbol, rfl⟩ := readSymbol_ok_iff.mp found
    rw [← Command.Keyword.text_of_ofText? keyword]
    exact .goto symbol
  · rename_i keyword
    obtain ⟨name, found, read⟩ := bind_ok read
    cases read
    obtain ⟨symbol, rfl⟩ := readSymbol_ok_iff.mp found
    rw [← Command.Keyword.text_of_ofText? keyword]
    exact .ifGoto symbol
  · rename_i keyword
    obtain ⟨name, found, read⟩ := bind_ok read
    obtain ⟨index, number, read⟩ := bind_ok read
    cases read
    obtain ⟨symbol, rfl⟩ := readSymbol_ok_iff.mp found
    rw [← Command.Keyword.text_of_ofText? keyword]
    exact .function symbol (readIndex_ok_iff.mp number)
  · rename_i keyword
    obtain ⟨name, found, read⟩ := bind_ok read
    obtain ⟨index, number, read⟩ := bind_ok read
    cases read
    obtain ⟨symbol, rfl⟩ := readSymbol_ok_iff.mp found
    rw [← Command.Keyword.text_of_ofText? keyword]
    exact .call symbol (readIndex_ok_iff.mp number)
  · rename_i keyword
    cases read
    rw [← Command.Keyword.text_of_ofText? keyword]
    exact .ret
  · rename_i other
    cases read
    exact .arithmetic (ofText?_eq_none_iff.mp other)
  · cases read
  · cases read

theorem interpret_of_denotes (denoted : Denotes (head :: arguments) command) :
    interpret malformed head arguments = .ok command := by
  have known : ∀ segment : Segment, readSegment segment.name = .ok segment := by
    intro segment
    exact readSegment_ok_iff.mpr rfl
  have symbol : ∀ {name : String}, IsName name → readSymbol malformed name = .ok name := by
    intro name is
    exact readSymbol_ok_iff.mpr ⟨is, rfl⟩
  have index : ∀ {word : String} {value : Word}, Numeral word value →
      readIndex malformed word = .ok value := readIndex_ok_iff.mpr
  have keyword := Command.Keyword.ofText?_text
  unfold interpret
  cases denoted with
  | push segment number =>
    rw [show Command.Keyword.ofText? "push" = _ from keyword .push]
    simp only [known, index number]
    rfl
  | pop segment number =>
    rw [show Command.Keyword.ofText? "pop" = _ from keyword .pop]
    simp only [known, index number]
    rfl
  | label is =>
    rw [show Command.Keyword.ofText? "label" = _ from keyword .label]
    simp only [symbol is]
    rfl
  | goto is =>
    rw [show Command.Keyword.ofText? "goto" = _ from keyword .goto]
    simp only [symbol is]
    rfl
  | ifGoto is =>
    rw [show Command.Keyword.ofText? "if-goto" = _ from keyword .ifGoto]
    simp only [symbol is]
    rfl
  | function is number =>
    rw [show Command.Keyword.ofText? "function" = _ from keyword .function]
    simp only [symbol is, index number]
    rfl
  | call is number =>
    rw [show Command.Keyword.ofText? "call" = _ from keyword .call]
    simp only [symbol is, index number]
    rfl
  | ret =>
    rw [show Command.Keyword.ofText? "return" = _ from keyword .ret]
  | arithmetic other =>
    rw [ofText?_eq_none_iff.mpr other]

end

def FailsOnly (blame : Error → Prop) (action : Except Error α) : Prop :=
  ∀ error, action = .error error → blame error

namespace FailsOnly

variable {blame : Error → Prop}

theorem bind {action : Except Error α} {next : α → Except Error β}
    (first : FailsOnly blame action) (rest : ∀ x, FailsOnly blame (next x)) :
    FailsOnly blame (action >>= next) := by
  intro error failed
  cases action with
  | error other =>
    cases failed
    exact first error rfl
  | ok x => exact rest x error failed

theorem pure (value : α) : FailsOnly blame (Pure.pure value) := by
  intro error failed
  cases failed

theorem error {cause : Error} (blamed : blame cause) :
    FailsOnly blame (Except.error cause : Except Error α) := by
  intro error failed
  cases failed
  exact blamed

end FailsOnly

/-- An unknown segment is refused by its name, all else by the line and its text. -/
def Blames (malformed : Reason → Error) (error : Error) : Prop :=
  (∃ reason, error = malformed reason) ∨ ∃ name, error = .invalidSegment name

/-- A condition leaves room for all that can be wrong with words: any refusal of a segment, and any
reason other than that a line has no words. -/
structure Admits (blame : Error → Prop) (malformed : Reason → Error) : Prop where
  segment : ∀ name, blame (.invalidSegment name)
  reason : ∀ reason, reason ≠ .unsplittable → reason ≠ .noWords → blame (malformed reason)

theorem admits_blames (malformed : Reason → Error) : Admits (Blames malformed) malformed :=
  ⟨fun name => .inr ⟨name, rfl⟩, fun reason _ _ => .inl ⟨reason, rfl⟩⟩

section
variable {blame : Error → Prop} {malformed : Reason → Error}

theorem readSegment_failsOnly (admits : Admits blame malformed) (word : String) :
    FailsOnly blame (readSegment word) := by
  unfold readSegment
  split
  · exact .pure _
  · exact .error (admits.segment word)

theorem readIndex_failsOnly (admits : Admits blame malformed) (word : String) :
    FailsOnly blame (readIndex malformed word) := by
  unfold readIndex
  split
  · exact .pure _
  · exact .error (admits.reason _ nofun nofun)

theorem readSymbol_failsOnly (admits : Admits blame malformed) (word : String) :
    FailsOnly blame (readSymbol malformed word) := by
  unfold readSymbol
  split
  · exact .pure _
  · exact .error (admits.reason _ nofun nofun)

theorem miscounted_failsOnly (admits : Admits blame malformed) (head : String) (expected : Nat)
    (arguments : List String) :
    FailsOnly blame (.error (malformed (miscounted head expected arguments)) : Except Error α) := by
  unfold miscounted
  split
  · exact .error (admits.reason _ nofun nofun)
  · exact .error (admits.reason _ nofun nofun)

theorem interpret_failsOnly (admits : Admits blame malformed) (head : String)
    (arguments : List String) : FailsOnly blame (interpret malformed head arguments) := by
  have segment := readSegment_failsOnly admits
  have index := readIndex_failsOnly admits
  have symbol := readSymbol_failsOnly admits
  unfold interpret
  split
  · exact (segment _).bind fun _ => (index _).bind fun _ => .pure _
  · exact (segment _).bind fun _ => (index _).bind fun _ => .pure _
  · exact (symbol _).bind fun _ => .pure _
  · exact (symbol _).bind fun _ => .pure _
  · exact (symbol _).bind fun _ => .pure _
  · exact (symbol _).bind fun _ => (index _).bind fun _ => .pure _
  · exact (symbol _).bind fun _ => (index _).bind fun _ => .pure _
  · exact .pure _
  · exact .pure _
  · exact miscounted_failsOnly admits _ _ _
  · exact miscounted_failsOnly admits _ _ _

end

theorem readLine_failsOnly (line : Nat) (code : List Char) :
    FailsOnly (Blames (Error.malformed line (String.ofList code))) (readLine line code) := by
  simp only [readLine]
  split
  · exact .error (.inl ⟨_, rfl⟩)
  · exact .error (.inl ⟨_, rfl⟩)
  · exact interpret_failsOnly (admits_blames _) _ _

/-- The reader takes a line as a command exactly if its words denote it. -/
theorem readLine_ok_iff {line : Nat} {code : List Char} {command : Command} :
    readLine line code = .ok command ↔ ∃ words, Words code words ∧ Denotes words command := by
  constructor
  · intro read
    simp only [readLine] at read
    split at read
    · cases read
    · cases read
    · rename_i head arguments found
      exact ⟨_, words?_eq_some_iff.mp found, denotes_of_interpret read⟩
  · rintro ⟨words, divided, denoted⟩
    have found := words?_of_words divided
    cases words with
    | nil => cases denoted
    | cons head arguments =>
      simp only [readLine, found]
      exact interpret_of_denotes denoted

theorem isBlank_of_isGap {c : Char} (gap : isGap c = true) : isBlank c = true := by
  simp only [isGap, Bool.or_eq_true, beq_iff_eq] at gap
  rcases gap with rfl | rfl
  · rfl
  · rfl

/-- What has no blank at its ends has neither a space nor a tab there, and so it has words. -/
theorem exists_words_of_bare {line : List Char} (nonempty : line ≠ []) (bare : Bare line) :
    ∃ words, Words line words := by
  have solid : ∀ c, isBlank c = false → isGap c = false := by
    intro c kept
    by_contra gap
    rw [Bool.not_eq_false] at gap
    rw [isBlank_of_isGap gap] at kept
    cases kept
  refine exists_words nonempty ?_ ?_
  · intro c first
    exact solid c (bare.head c first)
  · intro c last
    exact solid c (bare.last c last)

/-- A line of code has words, since it has been trimmed. -/
theorem exists_words_of_mem {text : List Char} {row : List Char × Nat}
    (member : row ∈ codeLines text) : ∃ words, Words row.1 words := by
  have line := isCodeLine_of_mem member
  exact exists_words_of_bare line.nonempty line.bare

theorem words_unique {line : List Char} {words : List String} (divided : Words line words) :
    ∀ other, Words line other ↔ other = words := by
  intro other
  rw [← words?_eq_some_iff, words?_of_words divided, Option.some.injEq, eq_comm]

structure Item.Follows (row : List Char × Nat) (item : Item) : Prop where
  line : item.line = row.2
  outcome : ∃ words, (∀ other, Words row.1 other ↔ other = words) ∧
    ∀ command, item.outcome = .ok command ↔ Denotes words command
  failure : FailsOnly (Blames (Error.malformed row.2 (String.ofList row.1))) item.outcome

theorem items_follow (source : String) :
    List.Forall₂ Item.Follows (codeLines source.toList) (items source) := by
  rw [items, List.forall₂_map_right_iff, List.forall₂_same]
  rintro ⟨code, line⟩ member
  obtain ⟨words, divided⟩ := exists_words_of_mem member
  have unique := words_unique divided
  refine ⟨rfl, ⟨words, unique, fun command => ?_⟩, readLine_failsOnly line code⟩
  rw [readLine_ok_iff]
  constructor
  · rintro ⟨other, same, denoted⟩
    rwa [← (unique other).mp same]
  · intro denoted
    exact ⟨words, divided, denoted⟩

theorem mapM_eq_ok_iff {f : α → Except ε β} {entries : List α} {results : List β} :
    entries.mapM f = .ok results ↔
      List.Forall₂ (fun entry result => f entry = .ok result) entries results := by
  constructor
  · exact forall₂_of_mapM
  · intro each
    induction each with
    | nil => rfl
    | cons first _ ih =>
      rw [List.mapM_cons, first, ih]
      rfl

/-- A traversal fails as the first of its entries that fails. -/
theorem mapM_eq_error_iff {f : α → Except ε β} {entries : List α} {error : ε} :
    entries.mapM f = .error error ↔ ∃ before entry after, entries = before ++ entry :: after ∧
      (∀ earlier ∈ before, ∃ result, f earlier = .ok result) ∧ f entry = .error error := by
  induction entries with
  | nil =>
    constructor
    · intro failed
      cases failed
    · rintro ⟨before, entry, after, split, -⟩
      simp at split
  | cons first rest ih =>
    rw [List.mapM_cons]
    constructor
    · intro failed
      cases outcome : f first with
      | error cause =>
        rw [outcome] at failed
        cases failed
        exact ⟨[], first, rest, rfl, by simp, outcome⟩
      | ok result =>
        rw [outcome] at failed
        have later : rest.mapM f = .error error := by
          cases others : rest.mapM f with
          | error cause =>
            simp only [others] at failed
            exact failed
          | ok results =>
            simp only [others] at failed
            cases failed
        obtain ⟨before, entry, after, rfl, passed, failed⟩ := ih.mp later
        refine ⟨first :: before, entry, after, rfl, ?_, failed⟩
        intro earlier member
        rcases List.mem_cons.mp member with rfl | member
        · exact ⟨result, outcome⟩
        · exact passed earlier member
    · rintro ⟨before, entry, after, split, passed, failed⟩
      cases before with
      | nil =>
        obtain ⟨rfl, -⟩ := List.cons.inj split
        rw [failed]
        rfl
      | cons _ before =>
        obtain ⟨rfl, rfl⟩ := List.cons.inj split
        obtain ⟨result, outcome⟩ := passed first List.mem_cons_self
        have later := ih.mpr ⟨before, entry, after, rfl,
          fun earlier member => passed earlier (List.mem_cons_of_mem _ member), failed⟩
        rw [outcome, later]
        rfl

theorem commands_ok_iff {source : String} {commands : List Command} :
    Source.commands source = .ok commands ↔
      List.Forall₂ (fun row command => ∃ words, Words row.1 words ∧ Denotes words command)
        (codeLines source.toList) commands := by
  rw [Source.commands, mapM_eq_ok_iff, items, List.forall₂_map_left_iff]
  simp only [readLine_ok_iff]

/-- The reader accepts exactly the grammar. The numbered lines of code are those of the text; there
is one item for each of them, with its number; an item is the command that the words of its line
denote, if they denote one, and otherwise blames the line. All commands of a source are read exactly
if every line denotes one, and else the first line that does not is refused. -/
theorem reader_accepts_grammar (source : String) :
    (∀ rows, CodeLines source.toList rows ↔ rows = codeLines source.toList) ∧
      List.Forall₂ Item.Follows (codeLines source.toList) (items source) ∧
      (∀ commands, Source.commands source = .ok commands ↔
        List.Forall₂ (fun row command => ∃ words, Words row.1 words ∧ Denotes words command)
          (codeLines source.toList) commands) ∧
      ∀ error, Source.commands source = .error error ↔
        ∃ before item after, items source = before ++ item :: after ∧
          (∀ earlier ∈ before, ∃ command, earlier.outcome = .ok command) ∧
          item.outcome = .error error := by
  refine ⟨fun rows => codeLines_iff, items_follow source, fun commands => commands_ok_iff, ?_⟩
  intro error
  exact mapM_eq_error_iff

end HackStack.Source
