import HackStack.Text.Line
import Mathlib.Data.List.Forall2
import Mathlib.Data.List.Infix
import Mathlib.Data.List.TakeWhile

/-! What the lines of a text are and what code a line holds, said by how the text is put together
and not by how it is read. The functions that read texts are exactly these relations. -/
namespace HackStack.Text

/-- A text is put together from lines. Each is ended by a newline or by a carriage return and a
newline; the last one may be ended by the text, and is then not empty. -/
inductive MadeOf : List Char → List (List Char) → Prop
  | nil : MadeOf [] []
  | last (whole : '\n' ∉ line) (nonempty : line ≠ []) : MadeOf line [line]
  | newline (whole : '\n' ∉ line) (bare : line.getLast? ≠ some '\r') (rest : MadeOf text rows) :
      MadeOf (line ++ '\n' :: text) (line :: rows)
  | returnNewline (whole : '\n' ∉ line) (rest : MadeOf text rows) :
      MadeOf (line ++ '\r' :: '\n' :: text) (line :: rows)

theorem lines_of_whole {line : List Char} (whole : '\n' ∉ line) :
    lines line = if line = [] then [] else [line] := by
  have split : line.splitOn '\n' = [line] := by
    apply List.splitOnP_eq_singleton
    intro c member
    rw [beq_eq_false_iff_ne]
    rintro rfl
    exact whole member
  simp [lines, split]

theorem lines_append_newline {line : List Char} (whole : '\n' ∉ line) (text : List Char) :
    lines (line ++ '\n' :: text) = dropReturn line :: lines text := by
  have pieces : text.splitOn '\n' ≠ [] := List.splitOnP_ne_nil _ _
  unfold lines
  rw [List.splitOn_append_cons_self_of_not_mem whole]
  simp [List.getLast?_cons, List.dropLast_cons_of_ne_nil pieces,
    List.getLast?_eq_some_getLast pieces]

theorem dropReturn_append_return (line : List Char) : dropReturn (line ++ ['\r']) = line := by
  simp [dropReturn]

theorem lines_of_madeOf {text : List Char} {rows : List (List Char)} (made : MadeOf text rows) :
    lines text = rows := by
  induction made with
  | nil => rfl
  | last whole nonempty => rw [lines_of_whole whole, if_neg nonempty]
  | newline whole bare _ ih =>
    rw [lines_append_newline whole, ih, dropReturn, if_neg bare]
  | @returnNewline line text rows whole _ ih =>
    have ended : '\n' ∉ line ++ ['\r'] := by simpa using whole
    have shifted : line ++ '\r' :: '\n' :: text = (line ++ ['\r']) ++ '\n' :: text := by simp
    rw [shifted, lines_append_newline ended, dropReturn_append_return, ih]

theorem madeOf_lines (text : List Char) : MadeOf text (lines text) := by
  by_cases newline : '\n' ∈ text
  · obtain ⟨line, rest, rfl, whole⟩ := List.eq_append_cons_of_mem newline
    have later := madeOf_lines rest
    rw [lines_append_newline whole]
    by_cases bare : line.getLast? = some '\r'
    · obtain ⟨front, rfl⟩ := List.getLast?_eq_some_iff.mp bare
      rw [dropReturn_append_return, List.append_assoc]
      exact .returnNewline (fun inside => whole (List.mem_append_left _ inside)) later
    · rw [dropReturn, if_neg bare]
      exact .newline whole bare later
  · rw [lines_of_whole newline]
    by_cases empty : text = []
    · rw [if_pos empty, empty]
      exact .nil
    · rw [if_neg empty]
      exact .last newline empty
termination_by text.length
decreasing_by
  subst text
  simp
  omega

theorem madeOf_iff {text : List Char} {rows : List (List Char)} :
    MadeOf text rows ↔ rows = lines text := by
  constructor
  · intro made
    exact (lines_of_madeOf made).symm
  · rintro rfl
    exact madeOf_lines text

/-- The part of a line before its first double slash; a line without one has no comment. -/
inductive Uncommented : List Char → List Char → Prop
  | whole (clear : ¬ ['/', '/'] <:+: line) : Uncommented line line
  | cut (first : ¬ ['/', '/'] <:+: before ++ ['/']) :
      Uncommented (before ++ '/' :: '/' :: comment) before

theorem slashes_infix_cons {c : Char} {rest : List Char} :
    ['/', '/'] <:+: c :: rest ↔ c = '/' ∧ rest.head? = some '/' ∨ ['/', '/'] <:+: rest := by
  rw [List.infix_cons_iff]
  refine or_congr_left ?_
  cases rest with
  | nil => simp
  | cons next rest => simp [List.cons_prefix_cons, eq_comm]

theorem slashes_infix_append {front : List Char} (clear : '/' ∉ front) (rest : List Char) :
    ['/', '/'] <:+: front ++ rest ↔ ['/', '/'] <:+: rest := by
  induction front with
  | nil => rfl
  | cons c others ih =>
    rw [List.mem_cons, not_or] at clear
    rw [List.cons_append, slashes_infix_cons, ih clear.2]
    constructor
    · rintro (⟨rfl, -⟩ | inside)
      · exact absurd rfl clear.1
      · exact inside
    · exact .inr

theorem slashes_infix_concat {front : List Char} {last : Char} (other : last ≠ '/') :
    ['/', '/'] <:+: front ++ [last] ↔ ['/', '/'] <:+: front := by
  induction front with
  | nil => simp [slashes_infix_cons, other]
  | cons c rest ih =>
    rw [List.cons_append, slashes_infix_cons, slashes_infix_cons, ih]
    cases rest with
    | nil => simp [other]
    | cons next rest => rfl

theorem cutComment_of_uncommented {line before : List Char} (cut : Uncommented line before) :
    cutComment line = before := by
  cases cut with
  | whole clear =>
    induction line with
    | nil => rfl
    | cons c rest ih =>
      rw [slashes_infix_cons, not_or, not_and_or] at clear
      rw [cutComment_cons clear.1, ih clear.2]
  | @cut _ comment first =>
    induction before with
    | nil => rfl
    | cons c rest ih =>
      rw [List.cons_append, slashes_infix_cons, not_or, not_and_or] at first
      have head : (rest ++ '/' :: '/' :: comment).head? = (rest ++ ['/']).head? := by
        cases rest <;> rfl
      rw [List.cons_append, cutComment_cons (head ▸ first.1), ih first.2]

theorem uncommented_cutComment (line : List Char) : Uncommented line (cutComment line) := by
  induction line with
  | nil => exact .whole (by simp)
  | cons c rest ih =>
    by_cases starts : c = '/' ∧ rest.head? = some '/'
    · obtain ⟨rfl, head⟩ := starts
      obtain ⟨comment, rfl⟩ := List.head?_eq_some_iff.mp head
      exact @Uncommented.cut [] comment (by simp [slashes_infix_cons])
    · rw [cutComment_cons (not_and_or.mp starts)]
      generalize cutComment rest = before at ih
      cases ih with
      | whole clear =>
        apply Uncommented.whole
        rw [slashes_infix_cons, not_or]
        exact ⟨starts, clear⟩
      | @cut _ comment first =>
        have head : (before ++ '/' :: '/' :: comment).head? = (before ++ ['/']).head? := by
          cases before <;> rfl
        apply @Uncommented.cut (c :: before)
        rw [List.cons_append, slashes_infix_cons, not_or, ← head]
        exact ⟨starts, first⟩

theorem uncommented_iff {line before : List Char} :
    Uncommented line before ↔ before = cutComment line := by
  constructor
  · intro cut
    exact (cutComment_of_uncommented cut).symm
  · rintro rfl
    exact uncommented_cutComment line

structure Bare (text : List Char) : Prop where
  head : ∀ c, text.head? = some c → isBlank c = false
  last : ∀ c, text.getLast? = some c → isBlank c = false

/-- The core of a text stands between blanks and has none at its ends. -/
structure Trimmed (text core : List Char) : Prop where
  around : ∃ before after, text = before ++ core ++ after ∧
    (∀ c ∈ before, isBlank c = true) ∧ ∀ c ∈ after, isBlank c = true
  bare : Bare core

theorem dropWhile_of_head {text : List Char} (head : ∀ c, text.head? = some c → isBlank c = false) :
    text.dropWhile isBlank = text := by
  cases text with
  | nil => rfl
  | cons c rest => simp [head c rfl]

theorem trim_of_bare {text : List Char} (bare : Bare text) : trim text = text := by
  have reversed : text.reverse.dropWhile isBlank = text.reverse := by
    apply dropWhile_of_head
    intro c first
    rw [List.head?_reverse] at first
    exact bare.last c first
  rw [trim, dropWhile_of_head bare.head, reversed, List.reverse_reverse]

theorem trim_of_trimmed {text core : List Char} (trimmed : Trimmed text core) :
    trim text = core := by
  obtain ⟨⟨before, after, rfl, lead, trail⟩, bare⟩ := trimmed
  have behind : ∀ c ∈ after.reverse, isBlank c = true := by
    intro c member
    exact trail c (List.mem_reverse.mp member)
  rw [trim, List.append_assoc, List.dropWhile_append_of_pos lead]
  by_cases empty : core = []
  · subst empty
    rw [List.nil_append, List.dropWhile_eq_nil_iff.mpr trail]
    rfl
  · have kept : (core ++ after).dropWhile isBlank = core ++ after := by
      apply dropWhile_of_head
      intro c first
      rw [List.head?_append_of_ne_nil _ empty] at first
      exact bare.head c first
    rw [kept, List.reverse_append, List.dropWhile_append_of_pos behind]
    have whole := trim_of_bare bare
    rwa [trim, dropWhile_of_head bare.head] at whole

theorem not_isBlank_head_dropWhile {text : List Char} {c : Char}
    (first : (text.dropWhile isBlank).head? = some c) : isBlank c = false := by
  have stopped := List.head?_dropWhile_not isBlank text
  rw [first] at stopped
  simpa using stopped

theorem trimmed_trim (text : List Char) : Trimmed text (trim text) := by
  have back : trim text ++ ((text.dropWhile isBlank).reverse.takeWhile isBlank).reverse =
      text.dropWhile isBlank := by
    rw [trim, ← List.reverse_append, List.takeWhile_append_dropWhile, List.reverse_reverse]
  have whole : text = text.takeWhile isBlank ++ trim text ++
      ((text.dropWhile isBlank).reverse.takeWhile isBlank).reverse := by
    rw [List.append_assoc, back, List.takeWhile_append_dropWhile]
  refine ⟨⟨_, _, whole, ?_, ?_⟩, ?_, ?_⟩
  · intro c member
    exact List.mem_takeWhile_imp member
  · intro c member
    exact List.mem_takeWhile_imp (List.mem_reverse.mp member)
  · intro c first
    apply not_isBlank_head_dropWhile
    rw [← back, List.head?_append, first]
    rfl
  · intro c last
    rw [trim, List.getLast?_reverse] at last
    exact not_isBlank_head_dropWhile last

theorem trimmed_iff {text core : List Char} : Trimmed text core ↔ core = trim text := by
  constructor
  · intro trimmed
    exact (trim_of_trimmed trimmed).symm
  · rintro rfl
    exact trimmed_trim text

/-- The code of a line is what is left without its comment and the blanks around it. -/
def IsCode (line code : List Char) : Prop := ∃ before, Uncommented line before ∧ Trimmed before code

theorem isCode_iff {line found : List Char} : IsCode line found ↔ found = code line := by
  simp only [IsCode, uncommented_iff, trimmed_iff, exists_eq_left]
  rfl

/-- The lines of a text that hold code, in order, each with its number, counted from one. -/
def CodeLines (text : List Char) (rows : List (List Char × Nat)) : Prop :=
  ∃ made codes, MadeOf text made ∧ List.Forall₂ IsCode made codes ∧
    rows = (codes.zipIdx 1).filter fun row => row.1 ≠ []

theorem forall₂_isCode_iff {made codes : List (List Char)} :
    List.Forall₂ IsCode made codes ↔ codes = made.map code := by
  have pointwise : IsCode = fun line found => code line = found := by
    funext line found
    rw [isCode_iff]
    exact propext eq_comm
  rw [pointwise, ← List.forall₂_map_left_iff, List.forall₂_eq_eq_eq, eq_comm]

theorem codeLines_iff {text : List Char} {rows : List (List Char × Nat)} :
    CodeLines text rows ↔ rows = codeLines text := by
  constructor
  · rintro ⟨made, codes, whole, each, rfl⟩
    rw [madeOf_iff.mp whole] at each
    rw [forall₂_isCode_iff.mp each]
    rfl
  · rintro rfl
    exact ⟨_, _, madeOf_lines text, forall₂_isCode_iff.mpr rfl, rfl⟩

structure IsCodeLine (text : List Char) : Prop where
  nonempty : text ≠ []
  whole : '\n' ∉ text
  clear : ¬ ['/', '/'] <:+: text
  bare : Bare text

theorem IsCodeLine.code {text : List Char} (line : IsCodeLine text) : code text = text := by
  have kept : IsCode text text :=
    ⟨text, .whole line.clear, ⟨⟨[], [], by simp⟩, line.bare⟩⟩
  exact (isCode_iff.mp kept).symm

theorem MadeOf.whole {text : List Char} {rows : List (List Char)} (made : MadeOf text rows) :
    ∀ line ∈ rows, '\n' ∉ line := by
  induction made with
  | nil =>
    intro line member
    cases member
  | last whole nonempty =>
    intro line member
    rw [List.mem_singleton.mp member]
    exact whole
  | newline whole _ _ ih | returnNewline whole _ ih =>
    intro line member
    rcases List.mem_cons.mp member with rfl | member
    · exact whole
    · exact ih line member

theorem Uncommented.clear {line before : List Char} (cut : Uncommented line before) :
    ¬ ['/', '/'] <:+: before := by
  cases cut with
  | whole clear => exact clear
  | cut first =>
    intro slashes
    exact first (slashes.trans (List.prefix_append _ _).isInfix)

theorem Uncommented.isPrefix {line before : List Char} (cut : Uncommented line before) :
    before <+: line := by
  cases cut with
  | whole clear => exact List.prefix_rfl
  | cut first => exact List.prefix_append _ _

theorem Trimmed.isInfix {text core : List Char} (trimmed : Trimmed text core) : core <:+: text := by
  obtain ⟨⟨before, after, rfl, -, -⟩, -⟩ := trimmed
  exact ⟨before, after, rfl⟩

/-- Whatever a text is, its lines of code are nothing but code. -/
theorem isCodeLine_of_mem {text : List Char} {row : List Char × Nat}
    (member : row ∈ codeLines text) : IsCodeLine row.1 := by
  obtain ⟨found, line⟩ := row
  obtain ⟨inside, nonempty⟩ := List.mem_filter.mp member
  obtain ⟨raw, among, rfl⟩ := List.mem_map.mp (List.fst_mem_of_mem_zipIdx inside)
  have cut := uncommented_cutComment raw
  have trimmed := trimmed_trim (cutComment raw)
  refine ⟨by simpa using nonempty, ?_, ?_, trimmed.bare⟩
  · intro newline
    apply (madeOf_lines text).whole raw among
    exact cut.isPrefix.subset (trimmed.isInfix.subset newline)
  · intro slashes
    exact cut.clear (slashes.trans trimmed.isInfix)

end HackStack.Text
