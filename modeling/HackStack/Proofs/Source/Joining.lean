import HackStack.Proofs.Source.Grammar

/-! Sources that are put together. A newline between two texts keeps their lines apart, so the items
of the whole are those of the parts, and the lines of the second part are counted on from the first.
Lines without code count, and do nothing else. -/
namespace HackStack

namespace Text

theorem Trimmed.concat_blank {text core : List Char} {c : Char} (trimmed : Trimmed text core)
    (blank : isBlank c = true) : Trimmed (text ++ [c]) core := by
  obtain ⟨⟨before, after, rfl, lead, trail⟩, bare⟩ := trimmed
  refine ⟨⟨before, after ++ [c], by simp, lead, fun other member => ?_⟩, bare⟩
  rcases List.mem_append.mp member with inside | last
  · exact trail other inside
  · rwa [List.mem_singleton.mp last]

theorem code_append_return (line : List Char) : code (line ++ ['\r']) = code line := by
  obtain ⟨before, cut, trimmed⟩ := isCode_iff.mpr (rfl : code line = code line)
  symm
  rw [← isCode_iff]
  cases cut with
  | whole clear =>
    refine ⟨line ++ ['\r'], .whole ?_, trimmed.concat_blank (by decide)⟩
    rwa [slashes_infix_concat (by decide)]
  | @cut _ comment first =>
    refine ⟨before, ?_, trimmed⟩
    rw [List.append_assoc]
    exact .cut first

theorem code_dropReturn (line : List Char) : code (dropReturn line) = code line := by
  unfold dropReturn
  split
  · rename_i last
    obtain ⟨front, rfl⟩ := List.getLast?_eq_some_iff.mp last
    rw [List.dropLast_concat, code_append_return]
  · rfl

/-- The code of those among some lines that hold any. The lines are counted from `start`. -/
def codeRows (start : Nat) (rows : List (List Char)) : List (List Char × Nat) :=
  ((rows.map code).zipIdx start).filter fun row => row.1 ≠ []

theorem codeRows_append (start : Nat) (first second : List (List Char)) :
    codeRows start (first ++ second) =
      codeRows start first ++ codeRows (start + first.length) second := by
  simp only [codeRows, List.map_append, List.zipIdx_append, List.filter_append, List.length_map]

/-- Lines that are counted from further on have numbers that are as much larger. -/
theorem codeRows_add (start offset : Nat) (rows : List (List Char)) :
    codeRows (start + offset) rows = (codeRows start rows).map (Prod.map id (· + offset)) := by
  rw [codeRows, Nat.add_comm, ← List.map_snd_add_zipIdx_eq_zipIdx, List.filter_map]
  rfl

/-- Lines of code are found among the pieces between newlines. Neither the carriage return before a
newline nor an empty last piece makes a difference. -/
theorem codeLines_eq_codeRows (text : List Char) :
    codeLines text = codeRows 1 (text.splitOn '\n') := by
  have pieces : text.splitOn '\n' ≠ [] := List.splitOnP_ne_nil _ _
  obtain ⟨front, final, split⟩ := (List.eq_nil_or_concat _).resolve_left pieces
  rw [List.concat_eq_append] at split
  have rows : codeLines text =
      codeRows 1 (front.map dropReturn ++ if final = [] then [] else [final]) := by
    simp [codeLines, codeRows, lines, split]
  have returns : codeRows 1 (front.map dropReturn) = codeRows 1 front := by
    simp [codeRows, Function.comp_def, code_dropReturn]
  rw [rows, split, codeRows_append, codeRows_append, returns, List.length_map]
  by_cases empty : final = []
  · rw [if_pos empty, empty]
    rfl
  · rw [if_neg empty]

theorem length_splitOn_newline (text : List Char) :
    (text.splitOn '\n').length = text.count '\n' + 1 := by
  unfold List.splitOn
  induction text with
  | nil => rfl
  | cons c rest ih =>
    rw [List.splitOnP_cons_eq_if_modifyHead, List.count_cons]
    by_cases newline : c = '\n'
    · simp [newline, ih]
    · simp [newline, ih]

theorem codeLines_append_newline (first second : List Char) :
    codeLines (first ++ '\n' :: second) = codeLines first ++
      (codeLines second).map (Prod.map id (· + (first.count '\n' + 1))) := by
  rw [codeLines_eq_codeRows, List.splitOn_append_cons_self, codeRows_append,
    length_splitOn_newline, codeRows_add, ← codeLines_eq_codeRows, ← codeLines_eq_codeRows]

/-- Lines without code, blank or all comment, have been put between other lines. -/
inductive Padded : List (List Char) → List (List Char) → Prop
  | nil : Padded [] []
  | line (row : List Char) (rest : Padded rows padded) : Padded (row :: rows) (row :: padded)
  | blank (empty : code row = []) (rest : Padded rows padded) : Padded rows (row :: padded)

theorem Padded.map_fst_codeRows {rows padded : List (List Char)} (more : Padded rows padded)
    (start other : Nat) :
    (codeRows start rows).map Prod.fst = (codeRows other padded).map Prod.fst := by
  have unnumbered : ∀ (start : Nat) (rows : List (List Char)),
      (codeRows start rows).map Prod.fst = (rows.map code).filter (· ≠ []) := by
    intro start rows
    rw [← List.zipIdx_map_fst start (rows.map code), List.filter_map]
    rfl
  rw [unnumbered, unnumbered]
  induction more with
  | nil => rfl
  | line row _ ih => rw [List.map_cons, List.map_cons, List.filter_cons, List.filter_cons, ih]
  | blank empty _ ih =>
    rw [List.map_cons, List.filter_cons, empty, ih]
    rfl

end Text

namespace Source

/-- The error with another number for the line that it blames. -/
def renumbered (change : Nat → Nat) : Error → Error
  | .malformed line text reason => .malformed (change line) text reason
  | error => error

def Item.renumber (change : Nat → Nat) (item : Item) : Item :=
  ⟨change item.line, item.outcome.mapError (renumbered change)⟩

theorem mapError_bind (change : ε → ε') (action : Except ε α) (next : α → Except ε β) :
    (action >>= next).mapError change =
      action.mapError change >>= fun value => (next value).mapError change := by
  cases action <;> rfl

theorem readSegment_mapError (change : Nat → Nat) (word : String) :
    (readSegment word).mapError (renumbered change) = readSegment word := by
  unfold readSegment
  cases Segment.ofName? word <;> rfl

theorem readIndex_mapError {malformed : Reason → Error} (change : Error → Error) (word : String) :
    (readIndex malformed word).mapError change = readIndex (change ∘ malformed) word := by
  unfold readIndex
  cases Decimal.unsigned? word.toList <;> rfl

theorem readSymbol_mapError {malformed : Reason → Error} (change : Error → Error) (word : String) :
    (readSymbol malformed word).mapError change = readSymbol (change ∘ malformed) word := by
  unfold readSymbol
  cases isSymbol word <;> rfl

theorem interpret_mapError (malformed : Reason → Error) (change : Nat → Nat) (head : String)
    (arguments : List String) :
    (interpret malformed head arguments).mapError (renumbered change) =
      interpret (renumbered change ∘ malformed) head arguments := by
  unfold interpret
  split
  case h_1 | h_2 =>
    simp only [mapError_bind, readSegment_mapError, readIndex_mapError]
    rfl
  case h_3 | h_4 | h_5 =>
    simp only [mapError_bind, readSymbol_mapError]
    rfl
  case h_6 | h_7 =>
    simp only [mapError_bind, readSymbol_mapError, readIndex_mapError]
    rfl
  case h_8 | h_9 | h_10 | h_11 => rfl

/-- A line is read as the same command, or refused for the same reason, whatever its number is. -/
theorem readLine_mapError (change : Nat → Nat) (line : Nat) (code : List Char) :
    (readLine line code).mapError (renumbered change) = readLine (change line) code := by
  unfold readLine
  split
  · rfl
  · rfl
  · exact interpret_mapError _ change _ _

theorem items_append_newline (first second : String) :
    items (first ++ "\n" ++ second) = items first ++
      (items second).map (Item.renumber (· + (first.toList.count '\n' + 1))) := by
  have chars : (first ++ "\n" ++ second).toList = first.toList ++ '\n' :: second.toList := by simp
  unfold items
  rw [chars, Text.codeLines_append_newline, List.map_append, List.map_map, List.map_map]
  congr 2
  funext row
  simp only [Function.comp_apply, Prod.map, id_eq, Item.renumber, readLine_mapError]

theorem mapError_eq_ok_iff {change : ε → ε'} {outcome : Except ε α} {value : α} :
    outcome.mapError change = .ok value ↔ outcome = .ok value := by
  cases outcome <;> simp [Except.mapError]

theorem mapM_renumber {change : Nat → Nat} {items : List Item} {commands : List Command} :
    (items.map (Item.renumber change)).mapM (·.outcome) = .ok commands ↔
      items.mapM (·.outcome) = .ok commands := by
  simp only [mapM_eq_ok_iff, List.forall₂_map_left_iff, Item.renumber, mapError_eq_ok_iff]

theorem commands_append_newline {first second : String} {commands : List Command} :
    Source.commands (first ++ "\n" ++ second) = .ok commands ↔
      ∃ head tail, Source.commands first = .ok head ∧ Source.commands second = .ok tail ∧
        commands = head ++ tail := by
  unfold Source.commands
  rw [items_append_newline, List.mapM_append]
  constructor
  · intro read
    obtain ⟨head, front, read⟩ := Assembly.bind_ok read
    obtain ⟨tail, back, read⟩ := Assembly.bind_ok read
    cases read
    exact ⟨head, tail, front, mapM_renumber.mp back, rfl⟩
  · rintro ⟨head, tail, front, back, rfl⟩
    rw [front, mapM_renumber.mpr back]
    rfl

/-- Lines without code that are put anywhere into a source change the numbers of lines and nothing
else. -/
theorem items_of_padded {text padded : String}
    (more : Text.Padded (text.toList.splitOn '\n') (padded.toList.splitOn '\n')) :
    (items padded).map (Item.renumber fun _ => 0) =
      (items text).map (Item.renumber fun _ => 0) := by
  have alike : ∀ source : String, (items source).map (Item.renumber fun _ => 0) =
      ((Text.codeRows 1 (source.toList.splitOn '\n')).map Prod.fst).map fun code =>
        ⟨0, readLine 0 code⟩ := by
    intro source
    rw [items, Text.codeLines_eq_codeRows, List.map_map, List.map_map]
    congr 1
    funext row
    simp only [Function.comp_apply, Item.renumber, readLine_mapError]
  rw [alike, alike, more.map_fst_codeRows 1 1]

/-- Sources are read part by part. The items of two texts with a newline between them are those of
the first and those of the second, whose lines have numbers that are larger by one and the number of
newlines in the first. So the whole is read as commands exactly if both parts are, and these are
then its commands. Lines that are blank or all comment, put anywhere into a source, leave every item
as it is apart from the numbers of lines, so the same commands are read. -/
theorem reading_part_by_part (first second : String) :
    items (first ++ "\n" ++ second) = items first ++
        (items second).map (Item.renumber (· + (first.toList.count '\n' + 1))) ∧
      (∀ commands, Source.commands (first ++ "\n" ++ second) = .ok commands ↔
        ∃ head tail, Source.commands first = .ok head ∧ Source.commands second = .ok tail ∧
          commands = head ++ tail) ∧
      ∀ text padded : String,
        Text.Padded (text.toList.splitOn '\n') (padded.toList.splitOn '\n') →
          (items padded).map (Item.renumber fun _ => 0) =
              (items text).map (Item.renumber fun _ => 0) ∧
            ∀ commands, Source.commands padded = .ok commands ↔
              Source.commands text = .ok commands := by
  refine ⟨items_append_newline first second, fun commands => commands_append_newline,
    fun text padded more => ⟨items_of_padded more, fun commands => ?_⟩⟩
  unfold Source.commands
  rw [← mapM_renumber, items_of_padded more, mapM_renumber]

/-- A first part that ends with a carriage return and a second one that is refused in its second
line; and a source with a comment before it, a blank line inside and a comment behind it. -/
theorem reading_part_by_part_notes :
    (items ("add // one\nneg\r" ++ "\n" ++ "// two\nnot 1")).map (fun item =>
        (item.line, item.outcome)) =
      [(1, .ok (.arithmetic "add")), (2, .ok (.arithmetic "neg")),
        (4, .error (.malformed 4 "not 1" (.trailing ["1"])))] ∧
    Source.commands "// head\nadd\n\t\nneg\n // tail" =
      .ok [.arithmetic "add", .arithmetic "neg"] := by
  obtain ⟨joined, -, padding⟩ := reading_part_by_part "add // one\nneg\r" "// two\nnot 1"
  constructor
  · rw [joined]
    decide +kernel
  · have more : Text.Padded ("add\nneg".toList.splitOn '\n')
        ("// head\nadd\n\t\nneg\n // tail".toList.splitOn '\n') := by
      have rows : ("add\nneg".toList.splitOn '\n') = ["add".toList, "neg".toList] := by
        decide +kernel
      have others : "// head\nadd\n\t\nneg\n // tail".toList.splitOn '\n' =
          ["// head".toList, "add".toList, ['\t'], "neg".toList, " // tail".toList] := by
        decide +kernel
      rw [rows, others]
      exact .blank (by decide +kernel) (.line _ (.blank (by decide +kernel) (.line _
        (.blank (by decide +kernel) .nil))))
    refine ((padding _ _ more).2 _).mpr ?_
    decide +kernel

end Source
end HackStack
