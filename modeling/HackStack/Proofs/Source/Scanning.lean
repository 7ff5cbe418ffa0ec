import HackStack.Proofs.Source.Grammar

/-! Scanning a line from left to right: a word, then separators and words in turn for as long as
both stand next. A separator that no word follows is left where it is, so a line can be scanned in
part. The reader's words are those of a scan to the end, and every line of code is scanned to its
end. So the two reasons that a line has no words never arise. -/
namespace HackStack.Source
open Text

def run? (kind : Char → Bool) (text : List Char) : Option (List Char × List Char) :=
  if text.takeWhile kind = [] then none else some (text.takeWhile kind, text.dropWhile kind)

theorem run?_eq_some_iff {kind : Char → Bool} {text run rest : List Char} :
    run? kind text = some (run, rest) ↔ text = run ++ rest ∧ run ≠ [] ∧
      (∀ c ∈ run, kind c = true) ∧ ∀ c, rest.head? = some c → kind c = false := by
  unfold run?
  constructor
  · intro found
    split_ifs at found with empty
    cases found
    refine ⟨List.takeWhile_append_dropWhile.symm, empty, fun c => List.mem_takeWhile_imp, ?_⟩
    intro c first
    have stopped := List.head?_dropWhile_not kind text
    rw [first] at stopped
    simpa using stopped
  · rintro ⟨rfl, nonempty, inside, stopped⟩
    have after : rest.takeWhile kind = [] ∧ rest.dropWhile kind = rest := by
      cases rest with
      | nil => exact ⟨rfl, rfl⟩
      | cons c others => simp [stopped c rfl]
    rw [List.takeWhile_append_of_pos inside, List.dropWhile_append_of_pos inside, after.1, after.2,
      List.append_nil, if_neg nonempty]

theorem length_of_run? {kind : Char → Bool} {text run rest : List Char}
    (found : run? kind text = some (run, rest)) : rest.length < text.length := by
  obtain ⟨rfl, nonempty, -, -⟩ := run?_eq_some_iff.mp found
  have := List.length_pos_of_ne_nil nonempty
  rw [List.length_append]
  omega

def word? : List Char → Option (List Char × List Char) := run? fun c => !isGap c

def gap? : List Char → Option (List Char × List Char) := run? isGap

theorem word?_eq_some_iff {line word rest : List Char} :
    word? line = some (word, rest) ↔
      line = word ++ rest ∧ IsWord word ∧ ∀ c, rest.head? = some c → isGap c = true := by
  rw [word?, run?_eq_some_iff]
  simp only [Bool.not_eq_true', Bool.not_eq_false']
  constructor
  · rintro ⟨split, nonempty, joined, stopped⟩
    exact ⟨split, ⟨nonempty, joined⟩, stopped⟩
  · rintro ⟨split, word, stopped⟩
    exact ⟨split, word.nonempty, word.joined, stopped⟩

/-- The words that follow a word, and what is left of the line. -/
def further (line : List Char) : List String × List Char :=
  match separated : gap? line with
  | none => ([], line)
  | some (_, behind) =>
    match next : word? behind with
    | none => ([], line)
    | some (word, rest) =>
      have : rest.length < line.length := (length_of_run? next).trans (length_of_run? separated)
      let (words, left) := further rest
      (String.ofList word :: words, left)
termination_by line.length

/-- The words of a line as far as it can be scanned, and what is left of it. -/
def scan? (line : List Char) : Option (List String × List Char) :=
  match word? line with
  | none => none
  | some (word, rest) =>
    let (words, left) := further rest
    some (String.ofList word :: words, left)

example : scan? "push \t pointer  1".toList = some (["push", "pointer", "1"], []) := by cbv

example : scan? "add\t ".toList = some (["add"], ['\t', ' ']) := by cbv

theorem further_of_no_gap {line : List Char} (none : gap? line = none) :
    further line = ([], line) := by
  rw [further]
  split
  · rfl
  · rename_i separated
    rw [none] at separated
    cases separated

/-- Behind a separator the rest is scanned like a line of its own. If that fails, the separator is
left over. -/
theorem further_of_gap {line gap behind : List Char} (separated : gap? line = some (gap, behind)) :
    further line = (scan? behind).getD ([], line) := by
  rw [further, scan?]
  split
  · rename_i none
    rw [none] at separated
    cases separated
  · rename_i found
    rw [found] at separated
    cases separated
    split
    · rename_i none
      rw [none]
      rfl
    · rename_i next
      simp only [next]
      rfl

theorem scan?_of_word {line word rest : List Char} (found : word? line = some (word, rest)) :
    scan? line = some (String.ofList word :: (further rest).1, (further rest).2) := by
  rw [scan?, found]

theorem Words.head {line : List Char} {words : List String} (divided : Words line words) :
    ∀ c, line.head? = some c → isGap c = false := by
  intro c first
  cases divided with
  | last word => exact word.joined c (List.mem_of_mem_head? first)
  | next word nonempty blank rest =>
    rw [List.head?_append_of_ne_nil _ word.nonempty] at first
    exact word.joined c (List.mem_of_mem_head? first)

theorem scan?_of_words {line : List Char} {words : List String} (divided : Words line words) :
    scan? line = some (words, []) := by
  induction divided with
  | @last line word =>
    have found : word? line = some (line, []) :=
      word?_eq_some_iff.mpr ⟨(List.append_nil line).symm, word, by simp⟩
    have ended : gap? [] = none := rfl
    rw [scan?_of_word found, further_of_no_gap ended]
  | @next word gap line words first nonempty blank rest ih =>
    have stopped : ∀ c, (gap ++ line).head? = some c → isGap c = true := by
      intro c next
      rw [List.head?_append_of_ne_nil _ nonempty] at next
      exact blank c (List.mem_of_mem_head? next)
    have found : word? (word ++ (gap ++ line)) = some (word, gap ++ line) :=
      word?_eq_some_iff.mpr ⟨rfl, first, stopped⟩
    have separated : gap? (gap ++ line) = some (gap, line) :=
      run?_eq_some_iff.mpr ⟨rfl, nonempty, blank, rest.head⟩
    rw [scan?_of_word found, further_of_gap separated, ih]
    rfl

theorem words_of_scan? {line : List Char} {words : List String}
    (scanned : scan? line = some (words, [])) : Words line words := by
  cases found : word? line with
  | none =>
    rw [scan?, found] at scanned
    cases scanned
  | some split =>
    obtain ⟨word, rest⟩ := split
    obtain ⟨whole, first, -⟩ := word?_eq_some_iff.mp found
    rw [scan?_of_word found] at scanned
    rw [whole]
    cases separated : gap? rest with
    | none =>
      rw [further_of_no_gap separated] at scanned
      cases scanned
      rw [List.append_nil]
      exact .last first
    | some split =>
      obtain ⟨gap, behind⟩ := split
      obtain ⟨parts, nonempty, blank, -⟩ := run?_eq_some_iff.mp separated
      rw [further_of_gap separated, parts] at scanned
      rw [parts]
      cases later : scan? behind with
      | none =>
        simp [later, nonempty] at scanned
      | some result =>
        obtain ⟨others, left⟩ := result
        rw [later] at scanned
        cases scanned
        exact .next first nonempty blank (words_of_scan? later)
termination_by line.length
decreasing_by exact (length_of_run? separated).trans (length_of_run? found)

/-- A scan reaches the end of a line exactly if the line is divided into words. -/
theorem scan?_eq_some_iff {line : List Char} {words : List String} :
    scan? line = some (words, []) ↔ Words line words :=
  ⟨words_of_scan?, scan?_of_words⟩

theorem words?_eq_some_iff_scan? {line : List Char} {words : List String} :
    words? line = some words ↔ scan? line = some (words, []) := by
  rw [words?_eq_some_iff, scan?_eq_some_iff]

theorem Words.nonempty {line : List Char} {words : List String} (divided : Words line words) :
    words ≠ [] := by
  cases divided with
  | last word => exact List.cons_ne_nil _ _
  | next first nonempty blank rest => exact List.cons_ne_nil _ _

theorem Words.isWord {line : List Char} {words : List String} (divided : Words line words) :
    ∀ word ∈ words, IsWord word.toList := by
  induction divided with
  | last word => simpa using word
  | next first nonempty blank rest ih => simpa using ⟨first, ih⟩

theorem IsWord.apart {word : String} (joined : IsWord word.toList) :
    word ≠ "" ∧ ' ' ∉ word.toList ∧ '\t' ∉ word.toList := by
  refine ⟨?_, fun space => ?_, fun tab => ?_⟩
  · rintro rfl
    exact joined.nonempty rfl
  · exact absurd (joined.joined _ space) (by decide)
  · exact absurd (joined.joined _ tab) (by decide)

def Wordless (error : Error) : Prop :=
  ∃ line text reason, error = .malformed line text reason ∧
    (reason = .unsplittable ∨ reason = .noWords)

theorem admits_not_wordless (line : Nat) (text : String) :
    Admits (fun error => ¬ Wordless error) (Error.malformed line text) where
  segment := by
    rintro name ⟨line, text, reason, same, -⟩
    cases same
  reason := by
    rintro reason splittable words ⟨line, text, other, same, wordless⟩
    cases same
    exact wordless.elim splittable words

/-- A line that is divided into words is never refused for having none. -/
theorem readLine_not_wordless {code : List Char} {words : List String} (divided : Words code words)
    (line : Nat) : FailsOnly (fun error => ¬ Wordless error) (readLine line code) := by
  have found := words?_of_words divided
  cases words with
  | nil => exact absurd rfl divided.nonempty
  | cons head arguments =>
    simp only [readLine, found]
    exact interpret_failsOnly (admits_not_wordless _ _) head arguments

theorem head?_message (reason : Reason) : reason.message.toList.head? =
    some (match reason with
      | .unsplittable => 'c'
      | .noWords => 'e'
      | .trailing _ => 'u'
      | .tooFew _ _ _ | .notInteger _ | .notSymbol _ => '`') := by
  have quoted : "`".toList.head? = some '`' := by decide
  have unexpected : "unexpected trailing `".toList.head? = some 'u' := by decide
  unfold Reason.message
  cases reason with
  | unsplittable => rfl
  | noWords => rfl
  | trailing =>
    simp only [String.toList_append, List.head?_append, unexpected, Option.some_or]
  | tooFew | notInteger | notSymbol =>
    simp only [String.toList_append, List.head?_append, quoted, Option.some_or]

/-- The texts of the two reasons are their own: no other text starts with either's letter. -/
theorem wordless_of_message {reason : Reason}
    (told : reason.message = "cannot split into words" ∨ reason.message = "empty command") :
    reason = .unsplittable ∨ reason = .noWords := by
  have initial := head?_message reason
  cases reason with
  | unsplittable => exact .inl rfl
  | noWords => exact .inr rfl
  | tooFew | trailing | notInteger | notSymbol =>
    rcases told with told | told
    · simp [told] at initial
    · simp [told] at initial

/-- Every line of code has words. No item of a source is refused because its line cannot be divided
into words or has none: what is left of a line without its comment and the blanks around it, if
anything is, can be scanned to its end, and gives at least one word; none of the words is empty or
has a space or a tab in it. -/
theorem lines_of_code_have_words (source : String) :
    (∀ item ∈ items source, ∀ line text reason,
        item.outcome = .error (.malformed line text reason) →
          reason.message ≠ "cannot split into words" ∧ reason.message ≠ "empty command") ∧
      ∀ line : List Char, code line ≠ [] →
        ∃ words, scan? (code line) = some (words, []) ∧ words? (code line) = some words ∧
          words ≠ [] ∧ ∀ word ∈ words, word ≠ "" ∧ ' ' ∉ word.toList ∧ '\t' ∉ word.toList := by
  constructor
  · intro item member line text reason failed
    obtain ⟨⟨found, number⟩, row, rfl⟩ := List.mem_map.mp member
    obtain ⟨words, divided⟩ := exists_words_of_mem row
    have blameless := readLine_not_wordless divided number _ failed
    rw [← not_or]
    intro told
    exact blameless ⟨line, text, reason, rfl, wordless_of_message told⟩
  · intro line nonempty
    obtain ⟨words, divided⟩ := exists_words_of_bare nonempty (trimmed_trim (cutComment line)).bare
    have scanned := scan?_of_words divided
    exact ⟨words, scanned, words?_eq_some_iff_scan?.mpr scanned, divided.nonempty,
      fun word member => (divided.isWord word member).apart⟩

end HackStack.Source
