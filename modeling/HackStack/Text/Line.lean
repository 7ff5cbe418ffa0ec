import HackStack.Text.Blank

/-! Lines of a text, and the code that a line holds once its comment is cut.
Command sources and assembly share these rules. -/
namespace HackStack.Text

def dropReturn (line : List Char) : List Char :=
  if line.getLast? = some '\r' then line.dropLast else line

/-- The lines of a text. A newline, with a carriage return right before it if there is one,
ends a line; what follows the last newline is a line only if it is not empty. -/
def lines (text : List Char) : List (List Char) :=
  let pieces := text.splitOn '\n'
  let final := pieces.getLast?.getD []
  pieces.dropLast.map dropReturn ++ if final = [] then [] else [final]

/-- Moves the characters before the first double slash to `seen`, in reverse. -/
def cutFrom (seen : List Char) : List Char → List Char
  | [] => seen.reverse
  | '/' :: '/' :: _ => seen.reverse
  | c :: rest => cutFrom (c :: seen) rest

def cutComment (line : List Char) : List Char := cutFrom [] line

theorem cutFrom_eq (seen line : List Char) :
    cutFrom seen line = seen.reverse ++ cutComment line := by
  induction line generalizing seen with
  | nil => simp [cutFrom, cutComment]
  | cons c rest ih =>
    unfold cutComment cutFrom
    split
    · simp
    · simp
    · rename_i equal
      cases equal
      rw [ih (_ :: seen), ih [_]]
      simp

@[simp] theorem cutComment_nil : cutComment [] = [] := rfl

@[simp] theorem cutComment_slashes (rest : List Char) :
    cutComment ('/' :: '/' :: rest) = [] := rfl

theorem cutComment_cons {c : Char} {rest : List Char}
    (kept : c ≠ '/' ∨ rest.head? ≠ some '/') :
    cutComment (c :: rest) = c :: cutComment rest := by
  have moved : cutComment (c :: rest) = cutFrom [c] rest := by
    rw [cutComment, cutFrom]
    rintro tail rfl rfl
    simp at kept
  rw [moved, cutFrom_eq]
  rfl

/-- The code of a line: its comment cut, the rest trimmed. -/
def code (line : List Char) : List Char := trim (cutComment line)

/-- The lines that hold code, each with its number in the text, counted from one. -/
def codeLines (text : List Char) : List (List Char × Nat) :=
  (((lines text).map code).zipIdx 1).filter fun (line, _) => line ≠ []

end HackStack.Text
