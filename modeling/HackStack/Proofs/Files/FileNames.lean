import HackStack.Proofs.Files.Plans
import Mathlib.Data.List.Induction

/-! Names of files. A path leads to a place whose last name is the file name of the path, so the
extension in the path is that of the file. Where no output is asked for, it has a place under a name
that ends with `.asm`, which is no source's. -/
namespace HackStack

namespace Path

/-- A path is divided at its last slash. What follows it can be exchanged for any piece without a
slash. -/
theorem exists_last_piece (path : Path) : ∃ front pieces piece, path = front ++ piece ∧
    slash ∉ piece ∧ (front = [] ∨ front.getLast? = some slash) ∧
    ∀ other : Path, slash ∉ other → (front ++ other).splitOn slash = pieces ++ [other] := by
  by_cases divided : slash ∈ path
  · obtain ⟨behind, before, reversed, plain⟩ :=
      List.eq_append_cons_of_mem (List.mem_reverse.mpr divided)
    have whole : path = before.reverse ++ [slash] ++ behind.reverse := by
      have twice := congrArg List.reverse reversed
      simpa using twice
    refine ⟨before.reverse ++ [slash], before.reverse.splitOn slash, behind.reverse, whole, ?_, ?_,
      ?_⟩
    · simpa using plain
    · exact .inr (by simp)
    · intro other clear
      rw [List.append_assoc, List.singleton_append, List.splitOn_append_cons_self,
        List.splitOn_eq_singleton clear]
  · refine ⟨[], [], path, rfl, divided, .inl rfl, fun other clear => ?_⟩
    exact List.splitOn_eq_singleton clear

theorem names_of_pieces {path : Path} {pieces : List Path} {piece : Path}
    (split : path.splitOn slash = pieces ++ [piece]) (full : piece ≠ [])
    (moves : piece ≠ [dot]) : (names path).getLast? = some piece := by
  simp [names, split, full, moves]

theorem fileName?_eq_some_iff {path : Path} {name : FileName} :
    fileName? path = some name ↔ (names path).getLast? = some name ∧ name ≠ [dot, dot] := by
  unfold fileName?
  split
  · rename_i last found
    rw [found, Option.some.injEq]
    by_cases up : last = [dot, dot]
    · simp only [up, if_true]
      constructor
      · nofun
      · rintro ⟨rfl, away⟩
        exact absurd rfl away
    · simp only [up, if_false, Option.some.injEq]
      constructor
      · rintro rfl
        exact ⟨rfl, up⟩
      · exact And.left
  · rename_i none
    simp [none]

theorem exists_stem {name extension : FileName} (found : (divide name).2 = some extension) :
    ∃ stem, name = stem ++ dot :: extension := by
  unfold divide at found
  simp only at found
  split at found
  · cases found
  · cases found
  · rename_i mark stem _ tail
    cases found
    have parts := List.takeWhile_append_dropWhile (p := (· ≠ dot)) (l := name.reverse)
    have same : mark = dot := by
      have head := List.head?_dropWhile_not (· ≠ dot) name.reverse
      rw [tail] at head
      simpa using head
    rw [tail] at parts
    subst same
    have whole := congrArg List.reverse parts
    refine ⟨stem.reverse, ?_⟩
    simpa using whole.symm

theorem fileName?_ending (front : Path) {ending : FileName} (plain : slash ∉ ending)
    (long : 2 < ending.length) : ∃ stem, fileName? (front ++ ending) = some (stem ++ ending) := by
  obtain ⟨before, pieces, piece, rfl, clear, -, split⟩ := exists_last_piece front
  have text : (before ++ piece ++ ending).splitOn slash = pieces ++ [piece ++ ending] := by
    rw [List.append_assoc]
    refine split _ ?_
    simp [clear, plain]
  have other : ∀ name : FileName, name.length ≤ 2 → piece ++ ending ≠ name := by
    rintro name short rfl
    rw [List.length_append] at short
    omega
  have last := names_of_pieces text (other [] (by decide)) (other [dot] (by decide))
  exact ⟨piece, fileName?_eq_some_iff.mpr ⟨last, other [dot, dot] (by decide)⟩⟩

theorem fileName?_asm (front : Path) :
    ∃ stem, fileName? (front ++ Text.bytes ".asm") = some (stem ++ Text.bytes ".asm") :=
  fileName?_ending front (by decide) (by decide)

theorem divide_asm (stem : FileName) :
    (divide (stem ++ Text.bytes ".asm")).2 ≠ some (Text.bytes "vm") := by
  have reversed : (stem ++ Text.bytes ".asm").reverse =
      109 :: 115 :: 97 :: dot :: stem.reverse := by
    rw [List.reverse_append]
    rfl
  have extension : Text.bytes "vm" = [118, 109] := rfl
  unfold divide
  simp only [reversed, extension]
  cases stem.reverse with
  | nil => simp [dot]
  | cons c rest => simp [dot]

theorem isSource_iff {path : Path} : Job.isSource path = true ↔
    ∃ name, fileName? path = some name ∧ (divide name).2 = some (Text.bytes "vm") := by
  simp only [Job.isSource, extension?, decide_eq_true_eq, Option.bind_eq_some_iff]

/-- A file whose name ends with `.asm` is no source. -/
theorem isSource_asm (front : Path) : Job.isSource (front ++ Text.bytes ".asm") = false := by
  obtain ⟨stem, name⟩ := fileName?_asm front
  simp [Job.isSource, extension?, name, divide_asm]

end Path

namespace FileTree
open Assembly

variable {tree : FileTree} {location : Location}

theorem eq_of_enter {here found : Location} {name : FileName}
    (entered : tree.enter here name = .ok found) (up : name ≠ [Path.dot, Path.dot]) :
    found = if name = [Path.dot] then here else here ++ [name] := by
  unfold enter at entered
  split at entered
  · cases entered
  · cases entered
  · obtain ⟨⟨⟩, -, entered⟩ := bind_ok entered
    split_ifs at entered
    · cases entered
      simp [*]
    · cases entered
      simp [*]

/-- A walk ends at the last of its names that moves, unless that goes up. -/
theorem getLast?_walk {names : List FileName} {start found : Location} {name : FileName}
    (walked : names.foldlM tree.enter start = .ok found)
    (last : (names.filter (· ≠ [Path.dot])).getLast? = some name)
    (up : name ≠ [Path.dot, Path.dot]) : found.getLast? = some name := by
  induction names using List.reverseRecOn generalizing found with
  | nil => simp at last
  | append_singleton front step ih =>
    rw [List.foldlM_append] at walked
    obtain ⟨middle, walked, entered⟩ := bind_ok walked
    rw [List.foldlM_cons] at entered
    obtain ⟨place, entered, done⟩ := bind_ok entered
    cases done
    by_cases stay : step = [Path.dot]
    · have same := eq_of_enter entered (by simp [stay])
      rw [if_pos stay] at same
      subst same
      refine ih walked ?_
      simpa [stay] using last
    · obtain rfl : step = name := by simpa [stay] using last
      rw [eq_of_enter entered up, if_neg stay]
      simp

theorem readPath_ok {path : Path} {start : Location} {names : List FileName}
    (read : tree.readPath path = .ok (start, names)) :
    path ≠ [] ∧ path.length < pathLimit ∧ names = (path.splitOn Path.slash).filter (· ≠ []) := by
  unfold readPath at read
  split_ifs at read with nul empty long
  · cases read
    exact ⟨empty, Nat.lt_of_not_le long, rfl⟩
  · cases read
    exact ⟨empty, Nat.lt_of_not_le long, rfl⟩

theorem names_of_readPath {path : Path} {start : Location} {names : List FileName}
    (read : tree.readPath path = .ok (start, names)) :
    names.filter (· ≠ [Path.dot]) = Path.names path := by
  rw [(readPath_ok read).2.2, Path.names, List.filter_filter]
  refine List.filter_congr fun piece _ => ?_
  simp only [ne_eq, decide_not, Bool.decide_and]
  exact Bool.and_comm _ _

/-- Where a path leads is called what the file name of the path says. -/
theorem getLast?_locate {path : Path} {name : FileName} (located : tree.locate path = .ok location)
    (called : Path.fileName? path = some name) : location.getLast? = some name := by
  obtain ⟨start, names, -, read, walked, -, -⟩ := locate_eq_ok_iff.mp located
  obtain ⟨last, up⟩ := Path.fileName?_eq_some_iff.mp called
  rw [← names_of_readPath read] at last
  exact getLast?_walk walked last up

end FileTree

theorem Location.exists_path (directory : Location) :
    ∃ front, ∀ name, Location.path (directory ++ [name]) = front ++ Path.slash :: name := by
  have joined : ∀ (rest : List FileName) (first name : FileName),
      [Path.slash].intercalate (first :: rest ++ [name]) =
        [Path.slash].intercalate (first :: rest) ++ Path.slash :: name := by
    intro rest
    induction rest with
    | nil => simp [List.intercalate]
    | cons second rest ih =>
      intro first name
      have later := ih second name
      simp only [List.intercalate, List.cons_append, List.intersperse_cons_cons, List.flatten_cons,
        List.append_assoc] at later ⊢
      rw [later]
  cases directory with
  | nil => exact ⟨[], fun name => by simp [Location.path, List.intercalate]⟩
  | cons first rest =>
    refine ⟨Path.slash :: [Path.slash].intercalate (first :: rest), fun name => ?_⟩
    rw [Location.path, joined]
    rfl

namespace Path

theorem fileName?_append {front path : Path} {name : FileName}
    (called : fileName? path = some name) : fileName? (front ++ slash :: path) = some name := by
  obtain ⟨last, up⟩ := fileName?_eq_some_iff.mp called
  have parts : names (front ++ slash :: path) = names front ++ names path := by
    rw [names, List.splitOn_append_cons_self, List.filter_append]
    rfl
  refine fileName?_eq_some_iff.mpr ⟨?_, up⟩
  rw [parts, List.getLast?_append, last]
  rfl

end Path

namespace Job

variable {tree : FileTree} {input : Path} {job : Job}

end Job
end HackStack
